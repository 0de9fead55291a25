import RDownloader.Core.Words
import RDownloader.Db.PackageRows
import RDownloader.Lib.Machine

/-!
# Enqueueing a package (`rd-scheduler/src/enqueue.rs`)

`write_package` is a series of requests to the store, each of which may fail, with a way back that
is a series of requests itself. Between any two of them the dispatcher, attempts and people write
the rows that are already there.
-/

namespace RDownloader

structure PackageSpec where
  password : Option String
  startPaused : Bool

/-- One file of a package. -/
structure FileSpec where
  source : String
  size : Option Nat
  /-- The size its source set states. -/
  setSize : Option Nat
  accountId : Option Nat
  /-- Key shared with the other links in this package that point at the same file. -/
  mirrorGroup : Option String
  /-- Whether this link waits for another member of its group instead of starting. -/
  skipped : Bool
  deriving DecidableEq, Repr

/-- A Metalink file states its size; the link itself was proposed without one. -/
def FileSpec.totalBytes (file : FileSpec) : Option Nat :=
  file.size.or (file.setSize.filter (· ≤ i64Max))

/-- The state a file's row is created in. A torrent waits for its reviewed selection. -/
def FileSpec.initialState (file : FileSpec) (startPaused reviewed : Bool) : DownloadState :=
  if file.skipped then .skipped
  else if startPaused || reviewed then .paused
  else .queued

/-- `Vec::swap_remove`. -/
def swapRemove (entries : List α) (index : Nat) : List α :=
  match entries.getLast? with
  | none => entries
  | some last => (entries.set index last).dropLast

/-- The reviewed state of a source, taken out of those that are left. -/
def takeState (states : List (String × τ)) (source : String) : Option τ × List (String × τ) :=
  match states.findIdx? (·.1 = source) with
  | none => (none, states)
  | some index => ((states[index]?).map (·.2), swapRemove states index)

/-- The request `write_package` makes next. -/
inductive EnqueuePhase (τ : Type u) where
  | createPackage
  | storePassword
  /-- The files that have no row yet; without one the rows are announced. -/
  | createDownload (rest : List FileSpec)
  | storeTorrentState (download : DownloadRow) (state : τ) (rest : List FileSpec)
  | joinQueue (download : DownloadRow) (rest : List FileSpec)
  | removeUnfinishedRow (id : DownloadId)
  /-- The rows `roll_back_partial_package` still has to remove, before the package. -/
  | rollBack (ids : List DownloadId)
  | answered (stored : Bool)

structure Enqueue (τ : Type u) where
  store : PackageRows τ
  package : PackageId
  spec : PackageSpec
  files : List FileSpec
  torrentStates : List (String × τ)
  phase : EnqueuePhase τ
  created : List DownloadId := []
  /-- The reviewed state of the file a row was written for. -/
  reviewed : DownloadId → Option τ := fun _ => none
  /-- The rows somebody else has removed. -/
  removed : List DownloadId := []

/-- What happens next. -/
inductive EnqueueEvent where
  /-- The next request is carried out, with this identifier and at this time. -/
  | proceeds (id : DownloadId) (now : Nat)
  /-- The next request fails. -/
  | fails
  /-- The row joins the queue, and reading it afterwards fails. -/
  | failsLate (now : Nat)
  /-- Somebody else writes a row. -/
  | writes (id : DownloadId) (write : RowWrite) (now : Nat)
  /-- Somebody else removes a row. -/
  | removes (id : DownloadId)

namespace Enqueue

variable {τ : Type u}

/-- A call of `enqueue_package_with_torrents`: the package has an identifier of its own, and one
without files is refused. -/
structure Started (call : Enqueue τ) : Prop where
  fresh : call.package ∉ call.store.packages
  phase : call.phase = if call.files = [] then .answered false else .createPackage
  created : call.created = []
  reviewed : ∀ id, call.reviewed id = none
  removed : call.removed = []

def newDownload (call : Enqueue τ) (id : DownloadId) (file : FileSpec) (reviewed : Option τ) :
    NewDownload where
  id := id
  packageId := call.package
  source := file.source
  totalBytes := file.totalBytes
  accountId := file.accountId
  initialState := file.initialState call.spec.startPaused reviewed.isSome
  mirrorGroup := file.mirrorGroup

/-- Where a failing request leads. -/
def failed (call : Enqueue τ) : Option (EnqueuePhase τ) :=
  match call.phase with
  | .createPackage => some (.answered false)
  | .storePassword => some (.rollBack [])
  -- the rows are committed already; a failure here costs the live update only
  | .createDownload [] => some (.answered true)
  | .createDownload (_ :: _) => some (.rollBack call.created)
  | .storeTorrentState download .. | .joinQueue download _ =>
    some (.removeUnfinishedRow download.id)
  | .removeUnfinishedRow _ => some (.rollBack call.created)
  -- one row that stays ends the way back, whatever else there is to remove
  | .rollBack _ => some (.answered false)
  | .answered _ => none

def fail (call : Enqueue τ) : Option (Enqueue τ) :=
  call.failed.map fun phase => { call with phase }

/-- The row is written completely. -/
def push (call : Enqueue τ) (id : DownloadId) (rest : List FileSpec) : Enqueue τ :=
  { call with created := call.created ++ [id], phase := .createDownload rest }

/-- The request of the present phase is carried out. -/
def proceed (call : Enqueue τ) (announced : PackageId → Bool) (id : DownloadId) (now : Nat) :
    Option (Enqueue τ) :=
  match call.phase with
  | .createPackage =>
    match call.store.createPackage call.package with
    | none => call.fail
    | some store => some { call with
        store
        phase := if call.spec.password.isSome then .storePassword else .createDownload call.files }
  | .storePassword => some { call with phase := .createDownload call.files }
  | .createDownload [] => some { call with phase := .answered true }
  | .createDownload (file :: rest) =>
    let (reviewed, torrentStates) := takeState call.torrentStates file.source
    let new := call.newDownload id file reviewed
    -- no identifier is handed out twice
    if id ∈ call.created then none
    else match call.store.createDownload new now with
      | none => call.fail
      | some store =>
        let call' := { call with
          store, torrentStates
          reviewed := fun other => if other = id then reviewed else call.reviewed other }
        match reviewed with
        | none => some (call'.push id rest)
        | some state => some { call' with
            phase := .storeTorrentState (call.store.newRow new now) state rest }
  | .storeTorrentState download state rest =>
    match call.store.setTorrentState download.id state with
    | none => call.fail
    | some store =>
      if !call.spec.startPaused && download.state = .paused then
        some { call with store, phase := .joinQueue download rest }
      else some ({ call with store }.push download.id rest)
  | .joinQueue download rest =>
    let store := call.store.joinQueue download.id download.createdAt now
    if (store.downloads.row? download.id).isSome then
      some ({ call with store }.push download.id rest)
    else call.fail
  | .removeUnfinishedRow id =>
    match call.store.deleteDownload announced id with
    | .error _ => call.fail
    | .ok store => some { call with store, phase := .rollBack call.created }
  | .rollBack [] =>
    some { call with
      store := call.store.deleteEmptyPackage call.package, phase := .answered false }
  | .rollBack (id :: ids) =>
    match call.store.deleteDownload announced id with
    | .error _ => call.fail
    | .ok store => some { call with store, phase := .rollBack ids }
  | .answered _ => none

def step (announced : PackageId → Bool) (redact : String → String) (call : Enqueue τ) :
    EnqueueEvent → Option (Enqueue τ)
  | .proceeds id now => call.proceed announced id now
  | .fails => call.fail
  | .failsLate now =>
    match call.phase with
    | .joinQueue download _ =>
      some { call with
        store := call.store.joinQueue download.id download.createdAt now
        phase := .removeUnfinishedRow download.id }
    | _ => none
  | .writes id write now =>
    (call.store.write announced redact id write now).map fun store => { call with store }
  | .removes id =>
    (call.store.deleteDownload announced id).toOption.map fun store =>
      { call with store, removed := id :: call.removed }

def machine (announced : PackageId → Bool) (redact : String → String) :
    Machine (Enqueue τ) EnqueueEvent where
  initial := Started
  step := step announced redact

/-! ## What enqueueing promises -/

/-- The file has its row, unless somebody has removed it since. -/
def Written (call : Enqueue τ) (file : FileSpec) (id : DownloadId) : Prop :=
  id ∈ call.removed ∨ ∃ row, call.store.downloads.row? id = some row ∧
    row.packageId = call.package ∧ row.source = file.source ∧ row.mirrorGroup = file.mirrorGroup

/-- The package is there with a row for each file, in their order. -/
structure Stored (call : Enqueue τ) : Prop where
  distinct : call.created.Nodup
  written : List.Forall₂ call.Written call.files call.created
  package : call.package ∈ call.store.packages ∨ ∀ id ∈ call.created, id ∈ call.removed

/-- An answered call has stored everything or nothing. -/
def AllOrNothing (call : Enqueue τ) : Prop :=
  match call.phase with
  | .answered true => call.Stored
  | .answered false => call.store.Gone call.package
  | _ => True

/-- A torrent's row is queued with its reviewed selection only. -/
def SelectionFirst (call : Enqueue τ) : Prop :=
  ∀ id row state, call.store.downloads.row? id = some row → row.state = .queued →
    call.reviewed id = some state → call.store.torrentStates id = some state

/-- The steps that keep the promise: whatever the way back removes lets itself be removed, and
nobody queues a torrent before its selection is stored. -/
def Undisturbed (call : Enqueue τ) : EnqueueEvent → Prop
  | .proceeds .. =>
    match call.phase with
    | .removeUnfinishedRow id =>
      ∀ row, call.store.downloads.row? id = some row → ¬ row.state.isWorking
    | .rollBack (id :: _) =>
      (∃ row, call.store.downloads.row? id = some row ∧ ¬ row.state.isWorking) ∨
        call.package ∉ call.store.packages
    | _ => True
  | .fails =>
    match call.phase with
    | .removeUnfinishedRow id => call.store.downloads.row? id = none
    | .rollBack _ => call.package ∉ call.store.packages
    | _ => True
  | .writes id write _ => write.queues = true →
    ∀ state, call.reviewed id = some state → call.store.torrentStates id = some state
  | .failsLate _ | .removes _ => True

/-! ## What holds between two requests -/

variable {announced : PackageId → Bool} {redact : String → String} {call next : Enqueue τ}
  {store : PackageRows τ} {queues : DownloadRow → Prop} {rest : List FileSpec} {ids : List DownloadId}
  {id : DownloadId} {now : Nat}

/-- The rows of the package that may exist. -/
def owned (call : Enqueue τ) : List DownloadId :=
  match call.phase with
  | .createPackage | .answered false => []
  | .storePassword | .createDownload _ | .answered true => call.created
  | .storeTorrentState download .. | .joinQueue download _ => call.created ++ [download.id]
  | .removeUnfinishedRow id => call.created ++ [id]
  | .rollBack ids => ids

/-- All files but the last have their rows. -/
def Filled (call : Enqueue τ) (rest : List FileSpec) (ids : List DownloadId) : Prop :=
  ids.Nodup ∧ ∃ files, call.files = files ++ rest ∧ List.Forall₂ call.Written files ids

def Progress (call : Enqueue τ) : Prop :=
  match call.phase with
  | .createPackage => call.created = [] ∧ call.package ∉ call.store.packages
  | .storePassword => call.created = []
  | .createDownload rest => call.Filled rest call.created
  | .storeTorrentState download state rest =>
    call.Filled rest (call.created ++ [download.id]) ∧ call.reviewed download.id = some state
  | .joinQueue download rest =>
    call.Filled rest (call.created ++ [download.id]) ∧ ∀ state,
      call.reviewed download.id = some state → call.store.torrentStates download.id = some state
  | .answered true => call.Filled [] call.created
  | .answered false => call.package ∉ call.store.packages
  | .removeUnfinishedRow _ | .rollBack _ => True

structure Inv (call : Enqueue τ) : Prop where
  owned : ∀ id row, call.store.downloads.row? id = some row → row.packageId = call.package →
    id ∈ call.owned
  progress : call.Progress
  selection : call.SelectionFirst

theorem inv_of_started (h : call.Started) : call.Inv where
  owned id row hrow hpackage :=
    absurd (call.store.referenced row (DownloadTable.mem_of_row? hrow)) (hpackage ▸ h.fresh)
  progress := by
    rw [Progress, h.phase]
    by_cases hfiles : call.files = []
    · rw [if_pos hfiles]
      exact h.fresh
    · rw [if_neg hfiles]
      exact ⟨h.created, h.fresh⟩
  selection id row state _ _ hreviewed := by
    cases (h.reviewed id).symm.trans hreviewed

/-- A file whose row nobody has removed keeps the package. -/
theorem package_of_written {files : List FileSpec} (h : List.Forall₂ call.Written files ids)
    (hid : id ∈ ids) (hstays : id ∉ call.removed) : call.package ∈ call.store.packages := by
  induction h with
  | nil => cases hid
  | @cons file first files ids hfirst _ ih =>
    rcases List.mem_cons.mp hid with rfl | hid
    · obtain ⟨row, hrow, hpackage, -⟩ := hfirst.resolve_left hstays
      exact hpackage ▸ call.store.referenced row (DownloadTable.mem_of_row? hrow)
    · exact ih hid

/-- What a call has answered is what enqueueing promises. -/
theorem Inv.allOrNothing (h : call.Inv) : call.AllOrNothing := by
  have hprogress := h.progress
  rw [Progress] at hprogress
  rw [AllOrNothing]
  cases hphase : call.phase with
  | answered stored =>
    rw [hphase] at hprogress
    cases stored with
    | false => exact PackageRows.gone_of_not_mem hprogress
    | true =>
      obtain ⟨hdistinct, files, hfiles, hwritten⟩ := hprogress
      rw [List.append_nil] at hfiles
      refine ⟨hdistinct, hfiles ▸ hwritten, ?_⟩
      by_cases hall : ∀ id ∈ call.created, id ∈ call.removed
      · exact .inr hall
      · push Not at hall
        obtain ⟨id, hid, hstays⟩ := hall
        exact .inl (package_of_written hwritten hid hstays)
  | _ => trivial

/-! ## What others write -/

theorem SelectionFirst.of_derives (h : call.SelectionFirst)
    (hderives : PackageRows.Derives queues call.store store)
    (hqueues : ∀ id row state, call.store.downloads.row? id = some row → queues row →
      call.reviewed id = some state → call.store.torrentStates id = some state)
    (id : DownloadId) (row : DownloadRow) (state : τ) (hrow : store.downloads.row? id = some row)
    (hqueued : row.state = .queued) (hreviewed : call.reviewed id = some state) :
    store.torrentStates id = some state := by
  obtain ⟨old, hold, -, hbefore⟩ := hderives.origin hrow
  rw [hderives.torrentStates]
  rcases hbefore hqueued with hqueued | hqueues'
  · exact h id old state hold hqueued hreviewed
  · exact hqueues id old state hold hqueues' hreviewed

theorem owned_of_derives
    (h : ∀ id row, call.store.downloads.row? id = some row → row.packageId = call.package →
      id ∈ ids)
    (hderives : PackageRows.Derives queues call.store store) (id : DownloadId) (row : DownloadRow)
    (hrow : store.downloads.row? id = some row) (hpackage : row.packageId = call.package) :
    id ∈ ids := by
  obtain ⟨old, hold, hsame, -⟩ := hderives.origin hrow
  exact h id old hold (hsame.packageId ▸ hpackage)

theorem Filled.of_keeps {gone : List DownloadId} (h : call.Filled rest ids)
    (hkeeps : PackageRows.Keeps (· ∈ gone) call.store store) :
    Filled { call with store, removed := gone ++ call.removed } rest ids := by
  obtain ⟨hdistinct, files, hfiles, hwritten⟩ := h
  refine ⟨hdistinct, files, hfiles, hwritten.imp fun file id hfile => ?_⟩
  rcases hfile with hremoved | ⟨row, hrow, hpackage, hsource, hgroup⟩
  · exact .inl (List.mem_append_right _ hremoved)
  · by_cases hgone : id ∈ gone
    · exact .inl (List.mem_append_left _ hgone)
    · obtain ⟨new, hnew, hsame⟩ := hkeeps hrow hgone
      exact .inr ⟨new, hnew, hsame.packageId.trans hpackage, hsame.source.trans hsource,
        hsame.mirrorGroup.trans hgroup⟩

theorem Filled.of_kept (h : call.Filled rest ids)
    (hkeeps : PackageRows.Keeps (fun _ => False) call.store store) :
    Filled { call with store } rest ids :=
  @Filled.of_keeps _ call store rest ids [] h fun hrow _ => hkeeps hrow fun h => h

/-- What somebody else writes or removes leaves the call where it is. -/
theorem Inv.of_derives {gone : List DownloadId} (h : call.Inv)
    (hderives : PackageRows.Derives queues call.store store)
    (hkeeps : PackageRows.Keeps (· ∈ gone) call.store store)
    (hqueues : ∀ id row state, call.store.downloads.row? id = some row → queues row →
      call.reviewed id = some state → call.store.torrentStates id = some state) :
    Inv { call with store, removed := gone ++ call.removed } where
  owned := by
    have howned := owned_of_derives h.owned hderives
    exact howned
  selection := h.selection.of_derives hderives hqueues
  progress := by
    have hprogress := h.progress
    obtain ⟨_, _, _, _, _, phase, _, _, _⟩ := call
    have hpackages := hderives.packages
    cases phase with
    | createPackage => exact ⟨hprogress.1, fun hmem => hprogress.2 (hpackages _ hmem)⟩
    | storePassword => exact hprogress
    | createDownload rest => exact Filled.of_keeps hprogress hkeeps
    | storeTorrentState download state rest =>
      exact ⟨Filled.of_keeps hprogress.1 hkeeps, hprogress.2⟩
    | joinQueue download rest =>
      refine ⟨Filled.of_keeps hprogress.1 hkeeps, fun state hreviewed => ?_⟩
      exact (congrFun hderives.torrentStates _).trans (hprogress.2 state hreviewed)
    | removeUnfinishedRow | rollBack => trivial
    | answered stored =>
      cases stored with
      | false => exact fun hmem => hprogress (hpackages _ hmem)
      | true => exact Filled.of_keeps hprogress hkeeps

/-! ## The requests of the call -/

/-- A request fails, and the way back leaves nothing where the way back is open. -/
theorem fail_inv (h : call.Inv) (hallowed : call.Undisturbed .fails) (hfail : call.fail = some next) :
    next.Inv := by
  obtain ⟨howned, hprogress, hselection⟩ := h
  obtain ⟨_, _, _, _, _, phase, _, _, _⟩ := call
  cases phase with
  | createPackage =>
    cases hfail
    exact ⟨howned, hprogress.2, hselection⟩
  | storePassword =>
    cases hfail
    obtain rfl : _ = [] := hprogress
    exact ⟨howned, trivial, hselection⟩
  | createDownload rest =>
    cases rest with
    | nil =>
      cases hfail
      exact ⟨howned, hprogress, hselection⟩
    | cons =>
      cases hfail
      exact ⟨howned, trivial, hselection⟩
  | storeTorrentState | joinQueue =>
    cases hfail
    exact ⟨howned, trivial, hselection⟩
  | removeUnfinishedRow id =>
    cases hfail
    refine ⟨fun other row hrow hpackage => ?_, trivial, hselection⟩
    rcases List.mem_append.mp (howned other row hrow hpackage) with hother | hother
    · exact hother
    · obtain rfl := List.mem_singleton.mp hother
      exact nomatch hrow.symm.trans hallowed
  | rollBack ids =>
    cases hfail
    refine ⟨fun other row hrow hpackage => ?_, hallowed, hselection⟩
    subst hpackage
    exact absurd (PackageRows.referenced _ row (DownloadTable.mem_of_row? hrow)) hallowed
  | answered => cases hfail

theorem createPackage_inv (h : call.Inv) (hphase : call.phase = .createPackage)
    (hproceed : call.proceed announced id now = some next) : next.Inv := by
  obtain ⟨howned, hprogress, hselection⟩ := h
  obtain ⟨store, _, ⟨password, _⟩, files, _, _, created, _, _⟩ := call
  subst hphase
  obtain ⟨rfl, hfresh⟩ : created = [] ∧ _ := hprogress
  rw [proceed] at hproceed
  dsimp only at hproceed
  cases hcreate : store.createPackage _ with
  | none =>
    rw [hcreate] at hproceed
    cases hproceed
    exact ⟨howned, hfresh, hselection⟩
  | some after =>
    rw [hcreate] at hproceed
    cases hproceed
    obtain ⟨hdownloads, htorrents⟩ := PackageRows.createPackage_downloads hcreate
    have hnone : ∀ id row, after.downloads.row? id = some row → row.packageId ≠ _ :=
      fun id row hrow hpackage => nomatch howned id row (hdownloads ▸ hrow) hpackage
    refine ⟨fun id row hrow hpackage => absurd hpackage (hnone id row hrow), ?_, ?_⟩
    · cases password with
      | none => exact ⟨List.nodup_nil, [], rfl, .nil⟩
      | some => rfl
    · intro id row state hrow hqueued hreviewed
      rw [htorrents]
      exact hselection id row state (hdownloads ▸ hrow) hqueued hreviewed

/-- The row of the next file is written, in a state of its own. -/
theorem filled_of_createDownload {new : NewDownload} {file : FileSpec}
    (h : call.Filled (file :: rest) call.created)
    (hcreate : call.store.createDownload new now = some store)
    (hid : new.id ∉ call.created) (hpackage : new.packageId = call.package)
    (hsource : new.source = file.source) (hgroup : new.mirrorGroup = file.mirrorGroup) :
    Filled { call with store } rest (call.created ++ [new.id]) := by
  obtain ⟨hfresh, -, hrows, -⟩ := PackageRows.createDownload_row? hcreate
  obtain ⟨hdistinct, files, hfiles, hwritten⟩ := h
  refine ⟨List.nodup_append.mpr ⟨hdistinct, List.nodup_singleton _, ?_⟩, files ++ [file], ?_, ?_⟩
  · rintro other hother _ hnew rfl
    exact hid (List.mem_singleton.mp hnew ▸ hother)
  · rw [List.append_assoc]
    exact hfiles
  · refine List.rel_append (hwritten.imp fun file other hfile => ?_) (.cons (.inr ?_) .nil)
    · refine hfile.imp_right fun ⟨row, hrow, hrest⟩ => ⟨row, ?_, hrest⟩
      refine (hrows other).trans ((if_neg ?_).trans hrow)
      rintro rfl
      exact nomatch hfresh.symm.trans hrow
    · exact ⟨_, (hrows new.id).trans (if_pos rfl), hpackage, hsource, hgroup⟩

theorem takeState_none_ne_queued (file : FileSpec) (startPaused : Bool) :
    file.initialState startPaused true ≠ .queued := by
  rw [FileSpec.initialState, Bool.or_true, if_pos rfl]
  split <;> exact fun h => nomatch h

theorem createDownload_inv {file : FileSpec} (h : call.Inv)
    (hphase : call.phase = .createDownload (file :: rest))
    (hproceed : call.proceed announced id now = some next) : next.Inv := by
  have hfailed : ∀ {next}, call.fail = some next → next.Inv :=
    fail_inv h (by rw [Undisturbed, hphase]; trivial)
  obtain ⟨howned, hprogress, hselection⟩ := h
  rw [proceed, hphase] at hproceed
  rw [Progress, hphase] at hprogress
  dsimp only at hproceed hprogress
  by_cases hid : id ∈ call.created
  · rw [if_pos hid] at hproceed
    cases hproceed
  rw [if_neg hid] at hproceed
  generalize htaken : takeState call.torrentStates file.source = taken at hproceed
  obtain ⟨reviewed, torrentStates⟩ := taken
  cases hcreate : call.store.createDownload (call.newDownload id file reviewed) now with
  | none =>
    rw [hcreate] at hproceed
    exact hfailed hproceed
  | some store =>
    rw [hcreate] at hproceed
    obtain ⟨-, -, hrows, htorrents⟩ := PackageRows.createDownload_row? hcreate
    replace hrows : ∀ other, store.downloads.row? other = if other = id then
        some (call.store.newRow (call.newDownload id file reviewed) now)
      else call.store.downloads.row? other := hrows
    replace htorrents : ∀ other, store.torrentStates other =
      if other = id then none else call.store.torrentStates other := htorrents
    have hrowsOwned : ∀ other row, store.downloads.row? other = some row →
        row.packageId = call.package → other ∈ call.created ++ [id] := by
      intro other row hrow hpackage
      by_cases hother : other = id
      · exact List.mem_append_right _ (List.mem_singleton.mpr hother)
      · rw [hrows, if_neg hother] at hrow
        have hmem := howned other row hrow hpackage
        rw [owned, hphase] at hmem
        exact List.mem_append_left _ hmem
    have hselected : ∀ other row state, store.downloads.row? other = some row →
        row.state = .queued →
        (if other = id then reviewed else call.reviewed other) = some state →
        store.torrentStates other = some state := by
      intro other row state hrow hqueued hreviewed
      by_cases hother : other = id
      · rw [if_pos hother] at hreviewed
        rw [hrows, if_pos hother] at hrow
        cases hrow
        subst hreviewed
        exact absurd hqueued (takeState_none_ne_queued file call.spec.startPaused)
      · rw [if_neg hother] at hreviewed
        rw [hrows, if_neg hother] at hrow
        rw [htorrents, if_neg hother]
        exact hselection other row state hrow hqueued hreviewed
    have hfilled := filled_of_createDownload hprogress hcreate hid rfl rfl rfl
    cases reviewed with
    | none =>
      cases hproceed
      exact ⟨hrowsOwned, hfilled, hselected⟩
    | some state =>
      cases hproceed
      exact ⟨hrowsOwned, ⟨hfilled, if_pos rfl⟩, hselected⟩

theorem storeTorrentState_inv {download : DownloadRow} {state : τ} (h : call.Inv)
    (hphase : call.phase = .storeTorrentState download state rest)
    (hproceed : call.proceed announced id now = some next) : next.Inv := by
  have hfailed : ∀ {next}, call.fail = some next → next.Inv :=
    fail_inv h (by rw [Undisturbed, hphase]; trivial)
  obtain ⟨howned, hprogress, hselection⟩ := h
  rw [proceed, hphase] at hproceed
  rw [Progress, hphase] at hprogress
  dsimp only at hproceed hprogress
  cases hstore : call.store.setTorrentState download.id state with
  | none =>
    rw [hstore] at hproceed
    exact hfailed hproceed
  | some store =>
    rw [hstore] at hproceed
    obtain ⟨hdownloads, -, htorrents⟩ := PackageRows.setTorrentState_row? hstore
    obtain ⟨hfilled, hstate⟩ := hprogress
    have hrowsOwned : ∀ other row, store.downloads.row? other = some row →
        row.packageId = call.package → other ∈ call.created ++ [download.id] := by
      intro other row hrow hpackage
      have hmem := howned other row (hdownloads ▸ hrow) hpackage
      rw [owned, hphase] at hmem
      exact hmem
    have hselected : ∀ other row reviewed, store.downloads.row? other = some row →
        row.state = .queued → call.reviewed other = some reviewed →
        store.torrentStates other = some reviewed := by
      intro other row reviewed hrow hqueued hreviewed
      rw [htorrents]
      split
      · next hother =>
        subst hother
        exact hstate.symm.trans hreviewed
      · exact hselection other row reviewed (hdownloads ▸ hrow) hqueued hreviewed
    have hkept : Filled { call with store } rest (call.created ++ [download.id]) :=
      hfilled.of_kept fun hrow _ => ⟨_, hdownloads ▸ hrow, .refl _⟩
    dsimp only at hproceed
    split at hproceed
    · cases hproceed
      refine ⟨hrowsOwned, ⟨hkept, fun reviewed hreviewed => ?_⟩, hselected⟩
      exact (htorrents download.id).trans ((if_pos rfl).trans (hstate.symm.trans hreviewed))
    · cases hproceed
      exact ⟨hrowsOwned, hkept, hselected⟩

theorem joined_inv {download : DownloadRow} (h : call.Inv)
    (hphase : call.phase = .joinQueue download rest)
    (hstore : store = call.store.joinQueue download.id download.createdAt now) :
    (∀ other row, store.downloads.row? other = some row → row.packageId = call.package →
      other ∈ call.created ++ [download.id]) ∧
    Filled { call with store } rest (call.created ++ [download.id]) ∧
    ∀ other row state, store.downloads.row? other = some row → row.state = .queued →
      call.reviewed other = some state → store.torrentStates other = some state := by
  obtain ⟨howned, hprogress, hselection⟩ := h
  rw [Progress, hphase] at hprogress
  dsimp only [owned] at howned
  rw [hphase] at howned
  obtain ⟨hfilled, hstored⟩ := hprogress
  obtain ⟨hderives, hkeeps⟩ :=
    @PackageRows.joinQueue_derives _ call.store download.id download.createdAt now
  rw [← hstore] at hderives hkeeps
  refine ⟨owned_of_derives howned hderives, hfilled.of_kept hkeeps,
    hselection.of_derives hderives ?_⟩
  intro other row state hrow hid hreviewed
  obtain rfl : other = download.id := (DownloadTable.row?_id hrow).symm.trans hid
  exact hstored state hreviewed

theorem joinQueue_inv {download : DownloadRow} (h : call.Inv)
    (hphase : call.phase = .joinQueue download rest)
    (hproceed : call.proceed announced id now = some next) : next.Inv := by
  have hfailed : ∀ {next}, call.fail = some next → next.Inv :=
    fail_inv h (by rw [Undisturbed, hphase]; trivial)
  obtain ⟨howned, hfilled, hselected⟩ := joined_inv h hphase
    (Eq.refl (call.store.joinQueue download.id download.createdAt now))
  rw [proceed, hphase] at hproceed
  dsimp only at hproceed
  split at hproceed
  · obtain rfl := Option.some.inj hproceed
    exact ⟨howned, hfilled, hselected⟩
  · exact hfailed hproceed

/-- A row the way back removes is one it need not remove any more. -/
theorem removal_inv (howned : ∀ other row, call.store.downloads.row? other = some row →
      row.packageId = call.package → other ∈ ids ∨ other = id)
    (hselection : call.SelectionFirst)
    (hdelete : call.store.deleteDownload announced id = .ok store) :
    Inv { call with store, phase := .rollBack ids } := by
  obtain ⟨-, hderives, hnone, -⟩ := PackageRows.deleteDownload_derives hdelete
  refine ⟨fun other row hrow hpackage => ?_, trivial,
    hselection.of_derives hderives fun _ _ _ _ h => h.elim⟩
  obtain ⟨old, hold, hsame, -⟩ := hderives.origin hrow
  refine (howned other old hold (hsame.packageId ▸ hpackage)).resolve_right ?_
  rintro rfl
  exact nomatch hnone.symm.trans hrow

theorem removeUnfinishedRow_inv {unfinished : DownloadId} (h : call.Inv)
    (hphase : call.phase = .removeUnfinishedRow unfinished)
    (hallowed : call.Undisturbed (.proceeds id now))
    (hproceed : call.proceed announced id now = some next) : next.Inv := by
  rw [Undisturbed, hphase] at hallowed
  rw [proceed, hphase] at hproceed
  dsimp only at hallowed hproceed
  cases hdelete : call.store.deleteDownload announced unfinished with
  | error refusal =>
    rw [hdelete] at hproceed
    refine fail_inv h ?_ hproceed
    rw [Undisturbed, hphase]
    refine Option.eq_none_iff_forall_not_mem.mpr fun row hrow => ?_
    exact hallowed row hrow (PackageRows.deleteDownload_refused hdelete hrow)
  | ok store =>
    rw [hdelete] at hproceed
    cases hproceed
    obtain ⟨howned, -, hselection⟩ := h
    rw [owned, hphase] at howned
    refine removal_inv (fun other row hrow hpackage => ?_) hselection hdelete
    exact (List.mem_append.mp (howned other row hrow hpackage)).imp_right List.mem_singleton.mp

theorem rollBack_inv (h : call.Inv) (hphase : call.phase = .rollBack ids)
    (hallowed : call.Undisturbed (.proceeds id now))
    (hproceed : call.proceed announced id now = some next) : next.Inv := by
  rw [Undisturbed, hphase] at hallowed
  rw [proceed, hphase] at hproceed
  cases ids with
  | nil =>
    cases hproceed
    obtain ⟨howned, -, hselection⟩ := h
    rw [owned, hphase] at howned
    have hempty : call.store.downloads.inPackage call.package = [] :=
      PackageRows.inPackage_eq_nil.mpr fun other row hrow hpackage =>
        nomatch howned other row hrow hpackage
    obtain ⟨hderives, hgone⟩ := @PackageRows.deleteEmptyPackage_derives _ call.store call.package
    refine ⟨fun other row hrow hpackage => ?_, (hgone hempty).1,
      hselection.of_derives hderives fun _ _ _ _ h => h.elim⟩
    exact absurd hpackage (PackageRows.inPackage_eq_nil.mp (hgone hempty).2 other row hrow)
  | cons first ids =>
    dsimp only at hallowed hproceed
    cases hdelete : call.store.deleteDownload announced first with
    | error refusal =>
      rw [hdelete] at hproceed
      refine fail_inv h ?_ hproceed
      rw [Undisturbed, hphase]
      refine hallowed.resolve_left fun ⟨row, hrow, hresting⟩ => ?_
      exact hresting (PackageRows.deleteDownload_refused hdelete hrow)
    | ok store =>
      rw [hdelete] at hproceed
      cases hproceed
      obtain ⟨howned, -, hselection⟩ := h
      rw [owned, hphase] at howned
      refine removal_inv (fun other row hrow hpackage => ?_) hselection hdelete
      exact (List.mem_cons.mp (howned other row hrow hpackage)).symm

theorem proceed_inv (h : call.Inv) (hallowed : call.Undisturbed (.proceeds id now))
    (hproceed : call.proceed announced id now = some next) : next.Inv := by
  cases hphase : call.phase with
  | createPackage => exact createPackage_inv h hphase hproceed
  | storePassword =>
    rw [proceed, hphase] at hproceed
    cases hproceed
    obtain ⟨howned, hprogress, hselection⟩ := h
    rw [owned, hphase] at howned
    rw [Progress, hphase] at hprogress
    refine ⟨howned, ?_, hselection⟩
    exact ⟨hprogress ▸ List.nodup_nil, [], rfl, hprogress ▸ .nil⟩
  | createDownload files =>
    cases files with
    | nil =>
      rw [proceed, hphase] at hproceed
      cases hproceed
      obtain ⟨howned, hprogress, hselection⟩ := h
      rw [owned, hphase] at howned
      rw [Progress, hphase] at hprogress
      exact ⟨howned, hprogress, hselection⟩
    | cons file rest => exact createDownload_inv h hphase hproceed
  | storeTorrentState => exact storeTorrentState_inv h hphase hproceed
  | joinQueue => exact joinQueue_inv h hphase hproceed
  | removeUnfinishedRow => exact removeUnfinishedRow_inv h hphase hallowed hproceed
  | rollBack => exact rollBack_inv h hphase hallowed hproceed
  | answered =>
    rw [proceed, hphase] at hproceed
    cases hproceed

theorem step_inv {event : EnqueueEvent} (h : call.Inv) (hallowed : call.Undisturbed event)
    (hstep : call.step announced redact event = some next) : next.Inv := by
  cases event with
  | proceeds id now => exact proceed_inv h hallowed hstep
  | fails => exact fail_inv h hallowed hstep
  | failsLate now =>
    rw [step] at hstep
    split at hstep
    · next download rest hphase =>
      obtain rfl := Option.some.inj hstep
      obtain ⟨howned, -, hselected⟩ := joined_inv h hphase
        (Eq.refl (call.store.joinQueue download.id download.createdAt now))
      exact ⟨howned, trivial, hselected⟩
    · cases hstep
  | writes id write now =>
    obtain ⟨store, hwrite, rfl⟩ := Option.map_eq_some_iff.mp hstep
    obtain ⟨hderives, hkeeps⟩ := PackageRows.write_derives hwrite
    refine @Inv.of_derives _ call store _ [] h hderives (fun hrow _ => hkeeps hrow fun h => h) ?_
    rintro other row state hrow ⟨hid, hqueues⟩ hreviewed
    obtain rfl : other = id := (DownloadTable.row?_id hrow).symm.trans hid
    exact hallowed hqueues state hreviewed
  | removes id =>
    obtain ⟨store, hdelete, rfl⟩ := Option.map_eq_some_iff.mp hstep
    obtain ⟨-, hderives, -, hkeeps⟩ :=
      PackageRows.deleteDownload_derives (eq_ok_of_toOption hdelete)
    refine @Inv.of_derives _ call store _ [id] h hderives ?_ fun _ _ _ _ h => h.elim
    exact fun hrow hgone => hkeeps hrow fun heq => hgone (List.mem_singleton.mpr heq)

/-- A call that nothing disturbs stores the package with all its files or leaves nothing behind,
and whoever looks in between finds no torrent queued without its selection. -/
theorem promised_of_reaches (h : (machine announced redact).Reaches Undisturbed call) :
    call.AllOrNothing ∧ call.SelectionFirst := by
  have hinv : call.Inv := h.invariant Inv (fun _ => inv_of_started)
    fun _ _ _ hinv hallowed hstep => step_inv hinv hallowed hstep
  exact ⟨hinv.allOrNothing, hinv.selection⟩

/-! ## A row that has started -/

/-- Two plain files for a new package. -/
def twoFiles : Enqueue Unit where
  store := ⟨[], ⟨[], List.nodup_nil⟩, fun _ => none, fun _ => 0, fun _ h => nomatch h⟩
  package := 0
  spec := ⟨none, false⟩
  files := [⟨"https://example.invalid/1", none, none, none, none, false⟩,
    ⟨"https://example.invalid/2", none, none, none, none, false⟩]
  torrentStates := []
  phase := .createPackage

theorem twoFiles_started : twoFiles.Started where
  fresh h := nomatch h
  phase := rfl
  created := rfl
  reviewed _ := rfl
  removed := rfl

/-- The second file cannot be written. -/
def secondFails : List EnqueueEvent := [.proceeds 0 0, .proceeds 1 0, .fails]

/-- Enqueueing where no row has a verdict to settle. -/
def plainMachine : Machine (Enqueue Unit) EnqueueEvent :=
  machine (fun _ => false) fun text => text

/-- What has been answered, whether the package is there, and the rows that are. -/
def outcome (call : Enqueue Unit) : Option Bool × Bool × List DownloadId :=
  (match call.phase with | .answered stored => some stored | _ => none,
    call.package ∈ call.store.packages, call.store.downloads.rows.map (·.id))

theorem phase_of_outcome {call : Enqueue Unit} (h : call.outcome.1 = some stored) :
    call.phase = .answered stored := by
  rw [outcome] at h
  cases hphase : call.phase <;> rw [hphase] at h <;> cases h
  rfl

/-- Meanwhile the first file is being resolved. Its row is not removed, and the package stays with
one of its two files. -/
theorem startedRow_kept :
    ∃ call : Enqueue Unit, plainMachine.Reaches Machine.anything call ∧
      call.outcome = (some false, true, [1]) ∧ ¬ call.AllOrNothing := by
  have hruns : (plainMachine.run twoFiles
      [.proceeds 0 0, .proceeds 1 0, .writes 1 (.transition .resolving none) 1, .fails,
        .proceeds 0 2]).map outcome = some (some false, true, [1]) := by decide +kernel
  obtain ⟨call, hrun, houtcome⟩ := Option.map_eq_some_iff.mp hruns
  refine ⟨call, .run (.initial twoFiles_started) hrun, houtcome, fun hkept => ?_⟩
  rw [AllOrNothing, phase_of_outcome (congrArg (·.1) houtcome)] at hkept
  have hpackage : decide (call.package ∈ call.store.packages) = true :=
    congrArg (·.2.1) houtcome
  exact hkept.1 (of_decide_eq_true hpackage)

theorem secondFails_undisturbed :
    plainMachine.Within Undisturbed twoFiles
      (secondFails ++ [.proceeds 0 1, .proceeds 0 1]) := by
  refine fun package h => ⟨trivial, ?_⟩
  cases h
  refine fun first h => ⟨trivial, ?_⟩
  cases h
  refine fun second h => ⟨trivial, ?_⟩
  cases h
  refine fun removed h => ⟨.inl ⟨_, rfl, Bool.false_ne_true⟩, ?_⟩
  cases h
  exact fun last h => ⟨trivial, trivial⟩

/-- The first file still waits: nothing is left behind. -/
theorem promised_of_reaches_secondFails :
    ∃ call : Enqueue Unit, call.outcome = (some false, false, []) ∧
      call.AllOrNothing ∧ call.SelectionFirst := by
  have hruns : (plainMachine.run twoFiles
      (secondFails ++ [.proceeds 0 1, .proceeds 0 1])).map outcome = some (some false, false, []) := by
    decide +kernel
  obtain ⟨call, hrun, houtcome⟩ := Option.map_eq_some_iff.mp hruns
  exact ⟨call, houtcome, promised_of_reaches
    ((Machine.Reaches.initial twoFiles_started).within secondFails_undisturbed hrun)⟩

end Enqueue
end RDownloader
