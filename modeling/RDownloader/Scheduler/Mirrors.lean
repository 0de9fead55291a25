import RDownloader.Db.DownloadRows

/-!
# Mirror groups (`rd-scheduler/src/mirrors.rs`)
-/

namespace RDownloader

/-- Whether the file has already taken the group's turn and is under way or done with it. -/
def hasTakenTheTurn (state : DownloadState) : Bool :=
  state.holdsTheFile || state = .completed

/-- Whether the file is in the running for the group's turn without having taken it. -/
def isContending : DownloadState → Bool
  | .queued | .retryWait | .paused => true
  | _ => false

/-- Whether a member leaves its group nothing to wait for. -/
def holdsTheGroupOpen (state : DownloadState) : Bool :=
  hasTakenTheTurn state || isContending state || state = .blocked

/-- The other members of the file's group, if it belongs to one. -/
def siblings (file : DownloadRow) (downloads : List DownloadRow) : List DownloadRow :=
  if file.mirrorGroup.isNone then []
  else downloads.filter fun other =>
    other.id ≠ file.id && other.packageId = file.packageId && other.mirrorGroup = file.mirrorGroup

/-- The first of the least elements. -/
def firstMin {α : Type u} (before : α → α → Bool) : List α → Option α
  | [] => none
  | first :: rest =>
    some (rest.foldl (fun best other => if before other best then other else best) first)

/-- The order of a package's list. -/
def listedBefore (file other : DownloadRow) : Bool :=
  file.position < other.position ||
    (file.position = other.position && file.createdAt < other.createdAt)

/-- A member that has not failed yet comes first, then one with an account, then the first in the
list. -/
def ranksBefore (file other : DownloadRow) : Bool :=
  if file.lastError.isSome ≠ other.lastError.isSome then other.lastError.isSome
  else if file.accountId.isNone ≠ other.accountId.isNone then other.accountId.isNone
  else listedBefore file other

/-- The member that should run, out of those that could. -/
def bestCandidate (candidates : List DownloadRow) : Option DownloadRow :=
  firstMin ranksBefore candidates

/-- The member the group started with: the one whose failure is the group's verdict. -/
def leader (file : DownloadRow) (downloads : List DownloadRow) : DownloadRow :=
  (firstMin listedBefore (siblings file downloads ++ [file])).getD file

/-! ## Handing over -/

def localIoCode : String := "download.local_io"

/-- The file was fetched but could not be put in its place on this machine. -/
def localPromoteCode : String := "download.local_promote_failed"

def collisionSkippedCode : String := "download.collision_skipped"

/-- Recorded on a mirror that is given up while another member takes over. -/
def handoverCode : String := "download.mirror_handover"

/-- Recorded on the mirror the group started with once no member is left to try. -/
def exhaustedCode : String := "download.mirrors_exhausted"

/-- Whether the failure was raised by this machine rather than by the remote side. -/
def isLocal (failure : Failure) : Bool :=
  failure.code = some localIoCode || failure.code = some localPromoteCode ||
    failure.code = some collisionSkippedCode

/-- Whether a failed attempt should hand the group's turn to another mirror. -/
def handsOver (failure : Failure) (retryAt : Option Nat) : Bool :=
  if isLocal failure then false
  else if retryAt.isNone then true
  else match failure.category with
    | .transient _ | .captchaFailed => false
    | _ => true

end RDownloader
