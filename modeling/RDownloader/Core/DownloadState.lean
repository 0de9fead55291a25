/-!
# Download states (`rd-core/src/download.rs`)
-/

namespace RDownloader

inductive DownloadKind where
  | http
  | usenet
  | media
  | gallery
  | record
  | torrent
  | ftp
  | sftp
  | plugin
  | objectStorage
  deriving DecidableEq, Repr

/-- Persistent lifecycle of a download. -/
inductive DownloadState where
  | queued
  | resolving
  | downloading
  | paused
  | retryWait
  | verifying
  | repairing
  | extracting
  | seeding
  /-- Held back because another link to the same file is the one being downloaded. -/
  | skipped
  | blocked
  | failed
  | cancelled
  | completed
  deriving DecidableEq, Repr

namespace DownloadState

/-- Whether a state can move to `next` without repairing history. -/
def canTransitionTo (state next : DownloadState) : Bool :=
  (match state, next with
    | queued, resolving | queued, paused | queued, blocked | queued, cancelled
    | resolving, downloading | resolving, paused | resolving, retryWait | resolving, blocked
    | resolving, failed | resolving, cancelled
    | downloading, paused | downloading, retryWait | downloading, verifying
    | downloading, seeding | downloading, blocked | downloading, failed | downloading, cancelled
    | seeding, completed | seeding, failed | seeding, cancelled
    | paused, queued | paused, downloading | paused, cancelled
    | retryWait, queued | retryWait, resolving | retryWait, downloading | retryWait, paused
    | retryWait, failed | retryWait, cancelled
    | verifying, repairing | verifying, extracting | verifying, completed | verifying, failed
    | verifying, blocked | verifying, cancelled
    | repairing, extracting | repairing, completed | repairing, failed
    | extracting, completed | extracting, failed
    | completed, extracting
    | blocked, queued | blocked, resolving | blocked, cancelled
    | failed, queued | failed, cancelled
    | cancelled, queued
    -- a mirror is stood down from anything that has not started, and from a failure
    | queued, skipped | paused, skipped | retryWait, skipped | failed, skipped | blocked, skipped
    | skipped, queued | skipped, cancelled => true
    | _, _ => false) || state = next

/-- A worker runs the entry right now. -/
def isWorking : DownloadState → Bool
  | resolving | downloading | verifying | repairing | extracting => true
  | _ => false

/-- The payload is being written, read or served. -/
def holdsTheFile (state : DownloadState) : Bool :=
  state.isWorking || state = seeding

/-- Waiting for its turn or working. -/
def isQueuedOrWorking (state : DownloadState) : Bool :=
  state.isWorking || state = queued || state = retryWait

end DownloadState
end RDownloader
