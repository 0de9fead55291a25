import RDownloader.Core.Text
import RDownloader.Core.Timing
import RDownloader.Core.Failure
import RDownloader.Http.Plan
import RDownloader.Http.Transform

/-!
# The checks a response has to pass (`engine/request.rs`, `engine/resume.rs`, `probe.rs`)

Acceptance is spread over the status, the `Content-Range` and, for a body without one, the headers
that tell a file from a page. `startPosition_spec` gathers what an accepted response says.
-/

namespace RDownloader

/-- The head of a response. A header is `none` when it is absent or not readable as text. -/
structure Response where
  status : Nat
  /-- The status as it is printed, code and reason. -/
  statusText : String := ""
  contentRange : Option Text := none
  contentType : Option Text := none
  contentDisposition : Option Text := none
  /-- The announced length of the body. -/
  contentLength : Option Nat := none
  retryAfter : Option Text := none
  /-- The origin of the final address, and the addresses a refusal names. -/
  origin : Option String := none
  address : String := ""
  location : Option String := none
  deriving DecidableEq, Repr

namespace Response

def isSuccess (response : Response) : Bool := 200 ≤ response.status ∧ response.status < 300
def isRedirection (response : Response) : Bool := 300 ≤ response.status ∧ response.status < 400

end Response

/-- Length of the whole entity a `Content-Range` names; `none` for an unknown length. -/
def parseContentRangeTotal (value : Text) : Option Nat :=
  (value.rsplitOnce '/').bind fun (_, total) => total.parseU64

/-- First byte a `Content-Range` describes. -/
def parseContentRangeStart (value : Text) : Option Nat :=
  (value.trim.splitOnce ' ').bind fun (unit, ranges) =>
    if unit.eqIgnoreAsciiCase "bytes".toList then
      (ranges.trim.splitOnce '-').bind fun (first, _) => first.trim.parseU64
    else none

/-! ## Pages and files -/

/-- Payload size above which a text-ish content type is still accepted as a file. -/
def largePayloadBytes : Nat := 2 * 1024 * 1024

def mimeEssence (value : Text) : Text :=
  (((value.splitOnce ';').map (·.1)).getD value).trim.toAsciiLowercase

def isAttachment (disposition : Text) : Bool :=
  disposition.toAsciiLowercase.contains "attachment".toList

def isMarkup (essence : Text) : Bool :=
  essence ∈ ["text/html".toList, "application/xhtml+xml".toList]

def isTexty (essence : Text) : Bool :=
  essence ∈ ["text/plain".toList, "text/xml".toList, "text/css".toList, "text/javascript".toList,
    "application/xml".toList, "application/json".toList, "application/javascript".toList]

/-- Whether the headers describe file content rather than a page. -/
def looksDownloadable (contentDisposition contentType : Option Text) (total : Option Nat) : Bool :=
  if contentDisposition.any isAttachment then true else
  match contentType.map mimeEssence with
  | none => true
  | some essence =>
    if isMarkup essence then false
    else if !isTexty essence then true
    else total.any (largePayloadBytes ≤ ·)

def notAFile (contentType : Option Text) : HttpDownloadError :=
  let contentType := (contentType.map String.ofList).getD "unknown"
  .failure ((Failure.coded (.transient none) "download.not_a_file"
    s!"The server returned {contentType} instead of the requested part").withParam
      "content_type" contentType)

/-! ## Refusals -/

def statusFailure (response : Response) : HttpDownloadError :=
  let retryAfter := (response.retryAfter.bind Text.parseU64).map (min · maxRetryAfterSeconds)
  let category : FailureKind :=
    if response.status = 401 then .authRequired
    else if response.status = 403 then .accountInvalid
    else if response.status = 404 ∨ response.status = 410 then .permanent
    else if response.status = 429 then .rateLimited retryAfter
    else if 500 ≤ response.status ∧ response.status ≤ 599 then .transient retryAfter
    else .permanent
  .failure ((Failure.coded category "download.http_status"
    s!"HTTP {response.statusText}").withParam "status" response.statusText)

def redirectNotAllowed (target : String) : HttpDownloadError :=
  .failure ((Failure.coded .permanent "download.redirect_not_allowed"
    "The download was redirected outside the approved origins").withParam "target" target)

/-- What one connection is given beside its chunk. -/
structure Worker where
  coversWholeFile : Bool
  validator : Option String := none
  totalBytes : Option Nat
  requireRange : Bool
  approvedOrigins : List String := []
  /-- How the stream's bytes become the file. -/
  transform : Option StreamTransform := none

namespace Worker

/-- Refuses a response from an unapproved origin, a changed remote and an error status. -/
def checkResponse (worker : Worker) (response : Response) : Except HttpDownloadError Unit :=
  if worker.approvedOrigins ≠ [] ∧ !response.origin.any (· ∈ worker.approvedOrigins) then
    .error (redirectNotAllowed response.address)
  else if worker.approvedOrigins ≠ [] ∧ response.isRedirection then
    .error (redirectNotAllowed (response.location.getD response.address))
  else if response.status = 412 ∨ response.status = 416 then .error .remoteChanged
  else if !response.isSuccess then .error (statusFailure response)
  else .ok ()

/-- Refuses a described range of an entity whose length is not this transfer's. -/
def checkTotal (worker : Worker) (chunk : ChunkSpec) (contentRange : Text) :
    Except HttpDownloadError Unit :=
  match parseContentRangeTotal contentRange, worker.totalBytes with
  | some named, some expected => if named ≠ expected then .error .remoteChanged else .ok ()
  | _, _ =>
    if worker.validator.isNone ∧ chunk.committed > chunk.start then .error .remoteChanged
    else .ok ()

/-- Refuses a `206` whose `Content-Range` is not the range this chunk asked for. -/
def checkPartialRange (worker : Worker) (chunk : ChunkSpec) (response : Response) :
    Except HttpDownloadError Unit :=
  let range := response.contentRange.getD []
  match parseContentRangeStart range with
  | some start => if start = chunk.committed then worker.checkTotal chunk range
    else .error .rangeIgnored
  | none => .error .rangeIgnored

/-- Byte offset the body of a non-`206` success starts at, or why it cannot be used. -/
def unrangedStart (worker : Worker) (chunk : ChunkSpec) (response : Response) :
    Except HttpDownloadError Nat :=
  match response.contentRange.bind fun range =>
      (parseContentRangeStart range).map fun start => (range, start) with
  | some (range, start) =>
    -- A server that answers `200` while describing the range it sends is serving that range.
    if start = chunk.committed then (worker.checkTotal chunk range).map fun () => start
    else .error .rangeIgnored
  | none =>
    if !looksDownloadable response.contentDisposition response.contentType
        response.contentLength then
      .error (notAFile response.contentType)
    else if chunk.committed > chunk.start then .error .remoteChanged
    else if worker.coversWholeFile then .ok chunk.start
    else .error .rangeIgnored

/-- The byte offset this response's body is written from. -/
def startPosition (worker : Worker) (chunk : ChunkSpec) (response : Response) :
    Except HttpDownloadError Nat :=
  if response.status = 206 then
    (worker.checkPartialRange chunk response).map fun () => chunk.committed
  else if worker.requireRange then worker.unrangedStart chunk response
  else .ok chunk.committed

/-! ## What an accepted response says -/

/-- A `Content-Range` that describes the bytes from the committed offset on, of an entity whose
length is the expected one or is not known; unconfirmed bytes are continued only behind a
validator. -/
structure DescribesRange (worker : Worker) (chunk : ChunkSpec) (range : Text) : Prop where
  start : parseContentRangeStart range = some chunk.committed
  total : ∀ named expected, parseContentRangeTotal range = some named →
    worker.totalBytes = some expected → named = expected
  confirmed : parseContentRangeTotal range = none ∨ worker.totalBytes = none →
    worker.validator.isSome ∨ chunk.committed ≤ chunk.start

/-- What a response that is not described by a range has to be: the whole file, for a chunk that
is the whole file and has nothing committed. -/
structure WholeFile (worker : Worker) (chunk : ChunkSpec) (response : Response) : Prop where
  covers : worker.coversWholeFile = true
  nothing_committed : chunk.committed ≤ chunk.start
  downloadable : looksDownloadable response.contentDisposition response.contentType
    response.contentLength = true

theorem checkTotal_ok_iff (worker : Worker) (chunk : ChunkSpec) (range : Text)
    (hstart : parseContentRangeStart range = some chunk.committed) :
    worker.checkTotal chunk range = .ok () ↔ worker.DescribesRange chunk range := by
  unfold checkTotal
  split
  · next named expected hnamed hexpected =>
    constructor
    · intro h
      split at h
      · cases h
      · next heq =>
        refine ⟨hstart, fun n e hn he => ?_, fun h => ?_⟩
        · rw [hnamed] at hn; rw [hexpected] at he
          cases hn; cases he
          exact Decidable.not_not.mp heq
        · simp [hnamed, hexpected] at h
    · intro h
      rw [if_neg (Decidable.not_not.mpr (h.total named expected hnamed hexpected))]
  · next hunknown =>
    have hnone : parseContentRangeTotal range = none ∨ worker.totalBytes = none := by
      cases hnamed : parseContentRangeTotal range with
      | none => exact .inl rfl
      | some named =>
        cases hexpected : worker.totalBytes with
        | none => exact .inr rfl
        | some expected => exact absurd hexpected (hunknown named expected hnamed)
    constructor
    · intro h
      split at h
      · cases h
      · next hcond =>
        refine ⟨hstart, fun n e hn he => absurd he (hunknown n e hn), fun _ => ?_⟩
        rcases Decidable.not_and_iff_not_or_not.mp hcond with hval | hle
        · exact .inl (Option.isSome_iff_ne_none.mpr (by simpa using hval))
        · exact .inr (Nat.le_of_not_lt hle)
    · intro h
      have hconf := h.confirmed hnone
      rw [if_neg]
      rintro ⟨hval, hgt⟩
      rcases hconf with hsome | hle
      · simp [Option.isNone_iff_eq_none.mp hval] at hsome
      · omega

/-- A check in front of a value: both pass. -/
theorem ok_of_map_eq_ok {check : Except HttpDownloadError Unit} {value result : Nat}
    (h : check.map (fun () => value) = .ok result) : check = .ok () ∧ result = value := by
  cases check with
  | error failure => cases h
  | ok _ => exact ⟨rfl, (Except.ok.inj h).symm⟩

/-- What makes a response acceptable for a chunk. -/
inductive Accepts (worker : Worker) (chunk : ChunkSpec) (response : Response) : Prop
  /-- A part of the file, described by its header. -/
  | range (range : Text) (header : response.contentRange = some range)
    (describes : worker.DescribesRange chunk range)
  /-- The whole file, in answer to a request for a part. -/
  | wholeFile (required : worker.requireRange = true) (whole : worker.WholeFile chunk response)
  /-- The answer to a request that named no range. -/
  | unranged (unrequired : worker.requireRange = false)

/-- An accepted response is written from the committed offset on. -/
theorem startPosition_ok {worker : Worker} {chunk : ChunkSpec} {response : Response}
    (hle : chunk.start ≤ chunk.committed) (h : worker.startPosition chunk response = .ok position) :
    position = chunk.committed ∧ worker.Accepts chunk response := by
  unfold startPosition at h
  split at h
  · -- a `206`
    obtain ⟨hcheck, rfl⟩ := ok_of_map_eq_ok h
    refine ⟨rfl, ?_⟩
    unfold checkPartialRange at hcheck
    cases hrange : response.contentRange with
    | none => rw [hrange] at hcheck; cases hcheck
    | some range =>
      simp only [hrange, Option.getD_some] at hcheck
      split at hcheck
      · next start hstart =>
        split at hcheck
        · next heq =>
          subst heq
          exact .range range hrange ((worker.checkTotal_ok_iff chunk range hstart).mp hcheck)
        · cases hcheck
      · cases hcheck
  · split at h
    · next hrequire =>
      unfold unrangedStart at h
      split at h
      · next range start hheader =>
        obtain ⟨header, hrange, hstart⟩ := Option.bind_eq_some_iff.mp hheader
        obtain ⟨first, hfirst, heq⟩ := Option.map_eq_some_iff.mp hstart
        obtain ⟨rfl, rfl⟩ := Prod.mk.inj heq
        split at h
        · next hcommitted =>
          subst hcommitted
          obtain ⟨hcheck, rfl⟩ := ok_of_map_eq_ok h
          exact ⟨rfl, .range _ hrange ((worker.checkTotal_ok_iff chunk _ hfirst).mp hcheck)⟩
        · cases h
      · split at h
        · cases h
        split at h
        · cases h
        next hfile hnothing =>
        split at h
        · next hcovers =>
          obtain rfl := Except.ok.inj h
          exact ⟨by omega, .wholeFile hrequire ⟨hcovers, by omega, by simpa using hfile⟩⟩
        · cases h
    · next hrequire =>
      obtain rfl := Except.ok.inj h
      exact ⟨rfl, .unranged (by simpa using hrequire)⟩

end Worker
end RDownloader
