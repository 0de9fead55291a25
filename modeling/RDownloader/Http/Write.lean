import RDownloader.Http.Response
import RDownloader.Http.MacWalk

/-!
# Writing a body (`rd-http/src/engine/write.rs`)

`writeBody` lists what one connection does to the part file and the ledger, in order. What fails
on the way, a write or a refused checkpoint, ends the connection there, so what a connection has
done at any moment is an initial part of its list.
-/

namespace RDownloader

/-- Bytes after which a connection records how far it has come. -/
def checkpointBytes : Nat := 8 * 1024 * 1024

/-- What the write loop waits for. Where a list of events ends, the body ends. -/
inductive BodyEvent where
  /-- A buffer; `elapsed` tells whether the checkpoint interval is over once it is written. -/
  | buffer (bytes : List UInt8) (elapsed : Bool)
  | cancelled
  | failed (failure : Failure)
  deriving DecidableEq, Repr

/-- The bytes an event brings. -/
def BodyEvent.size : BodyEvent → Nat
  | .buffer bytes _ => bytes.length
  | _ => 0

/-- The bytes of a body. -/
def bodySize (events : List BodyEvent) : Nat := (events.map BodyEvent.size).sum

inductive WriteEffect where
  | write (position : Nat) (bytes : List UInt8)
  | mac (index : Nat) (mac : Block)
  | commit (chunk : ChunkId) (position : Nat)
  deriving DecidableEq, Repr

/-- The bytes one buffer completes MACs of, when the stream has any. -/
def feedWalker (walker : Option MacWalker) (position : Nat) (plain : List UInt8) :
    Except Failure (List (Nat × Block) × Option MacWalker) :=
  match walker with
  | some walker => (walker.feed position plain).map fun (finished, walker) => (finished, some walker)
  | none => .ok ([], none)

namespace Worker

/-- What the file holds for bytes received at `position`. -/
def plaintext (worker : Worker) (position : Nat) (bytes : List UInt8) : List UInt8 :=
  (worker.transform.map (·.apply position bytes)).getD bytes

@[simp] theorem length_plaintext (worker : Worker) :
    (worker.plaintext position bytes).length = bytes.length := by
  unfold plaintext; cases worker.transform <;> simp

/-- Writes one received buffer at `position`: its effects, the walker and the position after it.
A file offset is a signed 64-bit number, and a write past the last one fails. -/
def writeBytes (worker : Worker) (chunk : ChunkSpec) (position : Nat) (bytes : List UInt8)
    (walker : Option MacWalker) :
    Except HttpDownloadError (List WriteEffect × Option MacWalker × Nat) :=
  if chunk.stop.any (· < position + bytes.length) then .error .remoteChanged else
  match feedWalker walker position (worker.plaintext position bytes) with
  | .error failure => .error (.failure failure)
  | .ok (finished, walker) =>
    if i64Max < position + bytes.length then .error (.local "positioned write past the last offset")
    else .ok (.write position (worker.plaintext position bytes) ::
      finished.map fun entry => .mac entry.1 entry.2, walker, position + bytes.length)

def responseTruncated (position expected : Nat) : HttpDownloadError :=
  .failure (((Failure.coded (.transient none) "download.response_truncated"
    s!"response ended at byte {position}, expected {expected}").withParam
      "position" (toString position)).withParam "expected" (toString expected))

/-- The loop of `write_body`, from the last recorded position `checkpoint` on. -/
def writeLoop (worker : Worker) (chunk : ChunkSpec) (walker : Option MacWalker)
    (position checkpoint : Nat) :
    List BodyEvent → List WriteEffect × Except HttpDownloadError DownloadOutcome
  | [] =>
    match chunk.stop with
    | some stop =>
      if position ≠ stop then ([], .error (responseTruncated position stop))
      else ([.commit chunk.id position], .ok .complete)
    | none => ([.commit chunk.id position], .ok .complete)
  | .cancelled :: _ => ([.commit chunk.id position], .ok .paused)
  | .failed failure :: _ => ([], .error (.failure failure))
  | .buffer bytes elapsed :: events =>
    match worker.writeBytes chunk position bytes walker with
    | .error failure => ([], .error failure)
    | .ok (written, walker, position) =>
      if position - checkpoint ≥ checkpointBytes ∨ elapsed then
        let (effects, outcome) := worker.writeLoop chunk walker position position events
        (written ++ .commit chunk.id position :: effects, outcome)
      else
        let (effects, outcome) := worker.writeLoop chunk walker position checkpoint events
        (written ++ effects, outcome)

/-- Streams the body from `position` to the end of the chunk, checkpointing on the way. -/
def writeBody (worker : Worker) (chunk : ChunkSpec) (position : Nat) (events : List BodyEvent) :
    List WriteEffect × Except HttpDownloadError DownloadOutcome :=
  worker.writeLoop chunk (worker.transform.bind (·.macWalker position)) position position events

/-- One connection: its response's head, then the body. -/
def run (worker : Worker) (chunk : ChunkSpec) (response : Response) (events : List BodyEvent) :
    List WriteEffect × Except HttpDownloadError DownloadOutcome :=
  match worker.checkResponse response with
  | .error failure => ([], .error failure)
  | .ok () =>
    match worker.startPosition chunk response with
    | .error failure => ([], .error failure)
    | .ok position => worker.writeBody chunk position events

end Worker

/-! ## What a connection does, in order -/

namespace WriteEffect

/-- Writes that follow one another from `position` on, with checkpoints where the writing is. -/
def Ordered (id : ChunkId) : Nat → List WriteEffect → Prop
  | _, [] => True
  | position, .write start bytes :: rest => start = position ∧ Ordered id (position + bytes.length) rest
  | position, .mac _ _ :: rest => Ordered id position rest
  | position, .commit chunk offset :: rest => chunk = id ∧ offset = position ∧ Ordered id position rest

/-- Where a connection that started at `position` has come to. -/
def reached : Nat → List WriteEffect → Nat
  | position, [] => position
  | position, .write _ bytes :: rest => reached (position + bytes.length) rest
  | position, _ :: rest => reached position rest

/-- The offsets a connection records. -/
def commits (effects : List WriteEffect) : List Nat :=
  effects.filterMap fun
    | .commit _ offset => some offset
    | _ => none

variable {id : ChunkId} {position : Nat}

theorem le_reached (position : Nat) (effects : List WriteEffect) :
    position ≤ reached position effects := by
  induction effects generalizing position with
  | nil => exact Nat.le_refl _
  | cons effect rest ih =>
    cases effect with
    | write _ bytes => exact Nat.le_trans (Nat.le_add_right ..) (ih _)
    | mac | commit => exact ih _

theorem reached_append (position : Nat) (xs ys : List WriteEffect) :
    reached position (xs ++ ys) = reached (reached position xs) ys := by
  induction xs generalizing position with
  | nil => rfl
  | cons effect rest ih => cases effect <;> exact ih _

theorem Ordered.append {xs ys : List WriteEffect} (hxs : Ordered id position xs)
    (hys : Ordered id (reached position xs) ys) : Ordered id position (xs ++ ys) := by
  induction xs generalizing position with
  | nil => exact hys
  | cons effect rest ih =>
    cases effect with
    | write => exact ⟨hxs.1, ih hxs.2 hys⟩
    | mac => exact ih hxs hys
    | commit => exact ⟨hxs.1, hxs.2.1, ih hxs.2.2 hys⟩

theorem ordered_macs (id : ChunkId) (position : Nat) (macs : List (Nat × Block)) :
    Ordered id position (macs.map fun entry => .mac entry.1 entry.2) ∧
      reached position (macs.map fun entry => .mac entry.1 entry.2) = position := by
  induction macs with
  | nil => exact ⟨trivial, rfl⟩
  | cons entry macs ih => exact ih

/-- The recorded offsets ascend from the start to where the connection has come to. -/
theorem Ordered.commits {effects : List WriteEffect} (h : Ordered id position effects) :
    (commits effects).Pairwise (· ≤ ·) ∧
      ∀ offset ∈ commits effects, position ≤ offset ∧ offset ≤ reached position effects := by
  induction effects generalizing position with
  | nil => exact ⟨.nil, fun _ hmem => by cases hmem⟩
  | cons effect rest ih =>
    cases effect with
    | write _ bytes =>
      obtain ⟨hasc, hbounds⟩ := ih h.2
      exact ⟨hasc, fun offset hmem =>
        ⟨Nat.le_trans (Nat.le_add_right ..) (hbounds offset hmem).1, (hbounds offset hmem).2⟩⟩
    | mac => exact ih h
    | commit chunk offset =>
      obtain ⟨-, rfl, hrest⟩ := h
      obtain ⟨hasc, hbounds⟩ := ih hrest
      refine ⟨List.pairwise_cons.mpr ⟨fun x hx => (hbounds x hx).1, hasc⟩, fun x hx => ?_⟩
      rcases List.mem_cons.mp hx with rfl | hx
      · exact ⟨Nat.le_refl _, le_reached ..⟩
      · exact hbounds x hx

/-- What is left of a fetch that stands at `position` of a chunk that ends at `stop`, and how it
will end: it ends complete only where it has written to the chunk's end, with that end recorded. -/
structure Script (id : ChunkId) (stop : Option Nat) (position : Nat) (effects : List WriteEffect)
    (result : Except HttpDownloadError DownloadOutcome) : Prop where
  ordered : Ordered id position effects
  bounded : ∀ last, stop = some last → reached position effects ≤ last
  complete : result = .ok .complete →
    (∀ last, stop = some last → reached position effects = last) ∧
      (effects = [] ∨ effects.getLast? = some (.commit id (reached position effects)))

namespace Script

variable {rest : List WriteEffect}

theorem write_tail (h : Script id stop position (.write start bytes :: rest) result) :
    start = position ∧ Script id stop (position + bytes.length) rest result ∧
      (∀ last, stop = some last → position + bytes.length ≤ last) ∧
      (result = .ok .complete → rest ≠ []) := by
  have hne (hcomplete : result = .ok .complete) : rest ≠ [] := by
    rintro rfl
    rcases (h.complete hcomplete).2 with hnil | hlast
    · cases hnil
    · cases hlast
  refine ⟨h.ordered.1, ⟨h.ordered.2, h.bounded, fun hcomplete => ?_⟩,
    fun last heq => Nat.le_trans (le_reached _ rest) (h.bounded last heq), hne⟩
  obtain ⟨hstop, hlast⟩ := h.complete hcomplete
  refine ⟨hstop, .inr ?_⟩
  rcases hlast with hnil | hlast
  · cases hnil
  · rwa [List.getLast?_cons_of_ne_nil (hne hcomplete)] at hlast

theorem mac_tail (h : Script id stop position (.mac index block :: rest) result) :
    Script id stop position rest result ∧ (result = .ok .complete → rest ≠ []) := by
  have hne (hcomplete : result = .ok .complete) : rest ≠ [] := by
    rintro rfl
    rcases (h.complete hcomplete).2 with hnil | hlast
    · cases hnil
    · cases hlast
  refine ⟨⟨h.ordered, h.bounded, fun hcomplete => ?_⟩, hne⟩
  obtain ⟨hstop, hlast⟩ := h.complete hcomplete
  refine ⟨hstop, .inr ?_⟩
  rcases hlast with hnil | hlast
  · cases hnil
  · rwa [List.getLast?_cons_of_ne_nil (hne hcomplete)] at hlast

theorem commit_tail (h : Script id stop position (.commit chunk offset :: rest) result) :
    chunk = id ∧ offset = position ∧ Script id stop position rest result := by
  refine ⟨h.ordered.1, h.ordered.2.1, h.ordered.2.2, h.bounded, fun hcomplete => ?_⟩
  obtain ⟨hstop, hlast⟩ := h.complete hcomplete
  refine ⟨hstop, ?_⟩
  cases rest with
  | nil => exact .inl rfl
  | cons effect rest =>
    rcases hlast with hnil | hlast
    · cases hnil
    · rw [List.getLast?_cons_cons] at hlast
      exact .inr hlast

end Script
end WriteEffect

namespace Worker

/-- What one buffer does: it is written where the connection is, inside the chunk. -/
theorem writeBytes_ok {worker : Worker}
    (h : worker.writeBytes chunk position bytes walker = .ok (written, walker', position')) :
    WriteEffect.Ordered chunk.id position written ∧
      WriteEffect.reached position written = position' ∧ position' = position + bytes.length ∧
      (∀ stop, chunk.stop = some stop → position' ≤ stop) ∧ position' ≤ i64Max := by
  unfold writeBytes at h
  split at h
  · cases h
  next hstop =>
  split at h
  · cases h
  split at h
  · cases h
  next hlast =>
  obtain ⟨rfl, hrest⟩ := Prod.mk.inj (Except.ok.inj h)
  obtain ⟨rfl, rfl⟩ := Prod.mk.inj hrest
  obtain ⟨hmacs, hreached⟩ := WriteEffect.ordered_macs chunk.id (position + bytes.length) _
  refine ⟨⟨rfl, ?_⟩, ?_, rfl, fun stop heq => ?_, Nat.le_of_not_lt hlast⟩
  · rw [length_plaintext]; exact hmacs
  · simp only [WriteEffect.reached, length_plaintext]; exact hreached
  · simpa [heq] using hstop

/-- A connection writes one byte after the other from its position on, never past its chunk's end,
and records only where it is. -/
theorem writeLoop_ordered (worker : Worker) (chunk : ChunkSpec) (walker : Option MacWalker)
    (position checkpoint : Nat) (events : List BodyEvent)
    (hstop : ∀ stop, chunk.stop = some stop → position ≤ stop) :
    let effects := (worker.writeLoop chunk walker position checkpoint events).1
    WriteEffect.Ordered chunk.id position effects ∧
      (∀ stop, chunk.stop = some stop → WriteEffect.reached position effects ≤ stop) ∧
      WriteEffect.reached position effects ≤ max position i64Max := by
  induction events generalizing walker position checkpoint with
  | nil =>
    unfold writeLoop
    split
    · split
      · exact ⟨trivial, hstop, Nat.le_max_left ..⟩
      · exact ⟨⟨rfl, rfl, trivial⟩, hstop, Nat.le_max_left ..⟩
    · exact ⟨⟨rfl, rfl, trivial⟩, hstop, Nat.le_max_left ..⟩
  | cons event events ih =>
    cases event with
    | cancelled => exact ⟨⟨rfl, rfl, trivial⟩, hstop, Nat.le_max_left ..⟩
    | failed => exact ⟨trivial, hstop, Nat.le_max_left ..⟩
    | buffer bytes elapsed =>
      unfold writeLoop
      split
      · exact ⟨trivial, hstop, Nat.le_max_left ..⟩
      · next written walker' position' hwritten =>
        obtain ⟨hordered, hreached, -, hstop', hlast⟩ := writeBytes_ok hwritten
        have hmax : max position' i64Max ≤ max position i64Max := by
          rw [Nat.max_eq_right hlast]
          exact Nat.le_max_right ..
        split
        · obtain ⟨hrest, hbound, hend⟩ := ih walker' position' position' hstop'
          refine ⟨hordered.append ?_, ?_, ?_⟩
          · rw [hreached]; exact ⟨rfl, rfl, hrest⟩
          · rw [WriteEffect.reached_append, hreached]; exact hbound
          · rw [WriteEffect.reached_append, hreached]; exact Nat.le_trans hend hmax
        · obtain ⟨hrest, hbound, hend⟩ := ih walker' position' checkpoint hstop'
          refine ⟨hordered.append ?_, ?_, ?_⟩
          · rw [hreached]; exact hrest
          · rw [WriteEffect.reached_append, hreached]; exact hbound
          · rw [WriteEffect.reached_append, hreached]; exact Nat.le_trans hend hmax

theorem getLast?_append_of_some {effects : List WriteEffect} (before : List WriteEffect)
    (h : effects.getLast? = some last) : (before ++ effects).getLast? = some last := by
  rw [List.getLast?_append, h]
  rfl

/-- A connection that ends complete has written its whole body and recorded the chunk's end last. -/
theorem writeLoop_complete (worker : Worker) (chunk : ChunkSpec) (walker : Option MacWalker)
    (position checkpoint : Nat) (events : List BodyEvent)
    (h : (worker.writeLoop chunk walker position checkpoint events).2 = .ok .complete) :
    let effects := (worker.writeLoop chunk walker position checkpoint events).1
    (∀ stop, chunk.stop = some stop → WriteEffect.reached position effects = stop) ∧
      effects.getLast? = some (.commit chunk.id (WriteEffect.reached position effects)) ∧
      WriteEffect.reached position effects = position + bodySize events := by
  induction events generalizing walker position checkpoint with
  | nil =>
    unfold writeLoop at h ⊢
    split at h
    · next stop hstop =>
      split at h
      · cases h
      · next heq =>
        rw [if_neg heq]
        refine ⟨fun last hlast => ?_, rfl, rfl⟩
        rw [← Option.some.inj (hstop.symm.trans hlast)]
        exact Decidable.not_not.mp heq
    · next hopen =>
      refine ⟨fun last hlast => ?_, rfl, rfl⟩
      rw [hopen] at hlast
      cases hlast
  | cons event events ih =>
    cases event with
    | cancelled => cases h
    | failed => cases h
    | buffer bytes elapsed =>
      unfold writeLoop at h ⊢
      split at h
      · cases h
      · next written walker' position' hwritten =>
        obtain ⟨-, hreached, hposition, -⟩ := writeBytes_ok hwritten
        have hsize : position' + bodySize events =
            position + bodySize (.buffer bytes elapsed :: events) := by
          simp only [hposition, bodySize, List.map_cons, List.sum_cons, BodyEvent.size]
          omega
        split at h
        · next hflush =>
          obtain ⟨hstop, hlast, hbody⟩ := ih walker' position' position' h
          rw [if_pos hflush]
          dsimp only
          rw [WriteEffect.reached_append, hreached]
          refine ⟨hstop, getLast?_append_of_some written ?_, hbody.trans hsize⟩
          exact getLast?_append_of_some [.commit chunk.id position'] hlast
        · next hflush =>
          obtain ⟨hstop, hlast, hbody⟩ := ih walker' position' checkpoint h
          rw [if_neg hflush]
          dsimp only
          rw [WriteEffect.reached_append, hreached]
          exact ⟨hstop, getLast?_append_of_some written hlast, hbody.trans hsize⟩

/-- A connection does nothing before its response is accepted, and then writes from the committed
offset on. -/
theorem run_cases (worker : Worker) (chunk : ChunkSpec) (response : Response)
    (events : List BodyEvent) (hle : chunk.start ≤ chunk.committed) :
    (∃ failure, worker.run chunk response events = ([], .error failure)) ∨
    (worker.checkResponse response = .ok () ∧ worker.Accepts chunk response ∧
      worker.run chunk response events = worker.writeBody chunk chunk.committed events) := by
  unfold run
  cases hcheck : worker.checkResponse response with
  | error failure => exact .inl ⟨failure, rfl⟩
  | ok _ =>
    cases hstart : worker.startPosition chunk response with
    | error failure => exact .inl ⟨failure, rfl⟩
    | ok position =>
      obtain ⟨rfl, haccepts⟩ := startPosition_ok hle hstart
      exact .inr ⟨rfl, haccepts, rfl⟩

/-- Whatever answers it, a connection is a script for its chunk. -/
theorem run_script (worker : Worker) (chunk : ChunkSpec) (hchunk : chunk.WellFormed)
    (response : Response) (events : List BodyEvent) :
    WriteEffect.Script chunk.id chunk.stop chunk.committed (worker.run chunk response events).1
      (worker.run chunk response events).2 := by
  rcases worker.run_cases chunk response events hchunk.start_le with
    ⟨failure, hrun⟩ | ⟨-, -, hrun⟩
  · rw [hrun]
    exact ⟨trivial, hchunk.committed_le, fun h => by cases h⟩
  · obtain ⟨hordered, hbounded, -⟩ := worker.writeLoop_ordered chunk
      (worker.transform.bind (·.macWalker chunk.committed)) chunk.committed chunk.committed events
      hchunk.committed_le
    rw [hrun]
    refine ⟨hordered, hbounded, fun hcomplete => ?_⟩
    obtain ⟨hstop, hlast, -⟩ := worker.writeLoop_complete chunk _ _ _ events hcomplete
    exact ⟨hstop, .inr hlast⟩

/-- A connection that ends complete has written all of its body. -/
theorem run_reached (worker : Worker) (chunk : ChunkSpec) (hchunk : chunk.WellFormed)
    (response : Response) (events : List BodyEvent)
    (h : (worker.run chunk response events).2 = .ok .complete) :
    WriteEffect.reached chunk.committed (worker.run chunk response events).1 =
      chunk.committed + bodySize events := by
  rcases worker.run_cases chunk response events hchunk.start_le with
    ⟨failure, hrun⟩ | ⟨-, -, hrun⟩
  · rw [hrun] at h
    cases h
  · rw [hrun] at h ⊢
    exact (worker.writeLoop_complete chunk _ _ _ events h).2.2

end Worker
end RDownloader
