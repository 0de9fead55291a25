import RDownloader.Http.Write

/-!
# Mirrors of another protocol (`rd-http/src/range_source.rs`)

A chunk fetched through an FTP or SFTP mirror: one connection, opened at the chunk's offset, read to
its end, with the checkpoints of an HTTP chunk.
-/

namespace RDownloader

/-- Bytes asked of a mirror's reader at a time. -/
def readBytes : Nat := 64 * 1024

/-- How a mirror answers the request for a reader. -/
inductive Opening where
  | opened
  | cancelled
  | refused (failure : Failure)
  deriving DecidableEq, Repr

def mirrorTruncated (position stop : Nat) : HttpDownloadError :=
  .failure (((Failure.coded (.transient none) "download.response_truncated"
    s!"the mirror ended at byte {position}, expected {stop}").withParam
      "position" (toString position)).withParam "expected" (toString stop))

/-- What follows the read loop: the position is recorded before any way out. -/
def viaEnd (id : ChunkId) (stop position : Nat) :
    List WriteEffect × Except HttpDownloadError DownloadOutcome :=
  ([.commit id position],
    if position ≠ stop then .error (mirrorTruncated position stop) else .ok .complete)

/-- The read loop. A read yields at most what is left of the chunk, and nothing when the mirror has
ended. -/
def viaLoop (id : ChunkId) (stop position checkpoint : Nat) :
    List BodyEvent → List WriteEffect × Except HttpDownloadError DownloadOutcome
  | [] => viaEnd id stop position
  | event :: events =>
    if stop ≤ position then viaEnd id stop position else
    match event with
    | .cancelled => ([.commit id position], .ok .paused)
    | .failed failure => ([.commit id position], .error (.failure failure))
    | .buffer bytes elapsed =>
      let read := bytes.take (min (stop - position) readBytes)
      if read = [] then viaEnd id stop position
      else if position + read.length - checkpoint ≥ checkpointBytes ∨ elapsed then
        let (effects, outcome) :=
          viaLoop id stop (position + read.length) (position + read.length) events
        (.write position read :: .commit id (position + read.length) :: effects, outcome)
      else
        let (effects, outcome) := viaLoop id stop (position + read.length) checkpoint events
        (.write position read :: effects, outcome)

/-- Fetches one bounded chunk through a range source. -/
def fetchVia (chunk : ChunkSpec) (opening : Opening) (events : List BodyEvent) :
    List WriteEffect × Except HttpDownloadError DownloadOutcome :=
  match chunk.stop with
  | none => ([], .error (.internal "a chunk fetched from a mirror needs an end"))
  | some stop =>
    if stop ≤ chunk.committed then ([], .ok .complete) else
    match opening with
    | .cancelled => ([], .ok .paused)
    | .refused failure => ([], .error (.failure failure))
    | .opened => viaLoop chunk.id stop chunk.committed chunk.committed events

/-! ## A mirror's connection is a script for its chunk -/

open WriteEffect (Script)

variable {id : ChunkId}

theorem viaEnd_script (h : position ≤ stop) :
    Script id (some stop) position (viaEnd id stop position).1 (viaEnd id stop position).2 where
  ordered := ⟨rfl, rfl, trivial⟩
  bounded := by
    rintro _ ⟨⟩
    exact h
  complete := by
    intro hcomplete
    unfold viaEnd at hcomplete
    dsimp only at hcomplete
    split at hcomplete
    · cases hcomplete
    · next heq =>
      refine ⟨?_, .inr rfl⟩
      rintro _ ⟨⟩
      exact Decidable.not_not.mp heq

/-- A recorded position that does not end the chunk. -/
theorem script_commit (h : position ≤ stop) (hresult : result ≠ .ok .complete) :
    Script id (some stop) position [.commit id position] result where
  ordered := ⟨rfl, rfl, trivial⟩
  bounded := by
    rintro _ ⟨⟩
    exact h
  complete := fun hcomplete => absurd hcomplete hresult

theorem WriteEffect.Script.commit {effects : List WriteEffect}
    (h : Script id stop position effects result) (hnonempty : effects ≠ []) :
    Script id stop position (.commit id position :: effects) result where
  ordered := ⟨rfl, rfl, h.ordered⟩
  bounded := h.bounded
  complete := by
    intro hcomplete
    obtain ⟨hstop, hlast⟩ := h.complete hcomplete
    refine ⟨hstop, .inr ?_⟩
    exact Worker.getLast?_append_of_some [_] (hlast.resolve_left hnonempty)

theorem WriteEffect.Script.write {effects : List WriteEffect} (bytes : List UInt8)
    (h : Script id stop (position + bytes.length) effects result) (hnonempty : effects ≠ []) :
    Script id stop position (.write position bytes :: effects) result where
  ordered := ⟨rfl, h.ordered⟩
  bounded := h.bounded
  complete := by
    intro hcomplete
    obtain ⟨hstop, hlast⟩ := h.complete hcomplete
    refine ⟨hstop, .inr ?_⟩
    exact Worker.getLast?_append_of_some [_] (hlast.resolve_left hnonempty)

theorem viaLoop_nonempty (id : ChunkId) (stop position checkpoint : Nat)
    (events : List BodyEvent) : (viaLoop id stop position checkpoint events).1 ≠ [] := by
  cases events with
  | nil => exact List.cons_ne_nil _ _
  | cons event events =>
    unfold viaLoop
    split
    · exact List.cons_ne_nil _ _
    · cases event with
      | cancelled | failed => exact List.cons_ne_nil _ _
      | buffer bytes elapsed =>
        dsimp only
        split
        · exact List.cons_ne_nil _ _
        · split <;> exact List.cons_ne_nil _ _

theorem viaLoop_script (h : position ≤ stop) (checkpoint : Nat) (events : List BodyEvent) :
    Script id (some stop) position (viaLoop id stop position checkpoint events).1
      (viaLoop id stop position checkpoint events).2 := by
  induction events generalizing position checkpoint with
  | nil => exact viaEnd_script h
  | cons event events ih =>
    unfold viaLoop
    split
    · exact viaEnd_script h
    next hmore =>
    cases event with
    | cancelled => exact script_commit h (by simp)
    | failed => exact script_commit h (by simp)
    | buffer bytes elapsed =>
      dsimp only
      generalize hread : bytes.take (min (stop - position) readBytes) = read
      have hfits : position + read.length ≤ stop := by
        have hlength : read.length ≤ min (stop - position) readBytes := by
          rw [← hread]
          exact List.length_take_le ..
        omega
      split
      · exact viaEnd_script h
      · split
        · exact .write read (.commit (ih hfits _) (viaLoop_nonempty _ _ _ _ _)) (List.cons_ne_nil _ _)
        · exact .write read (ih hfits _) (viaLoop_nonempty _ _ _ _ _)

theorem fetchVia_script (chunk : ChunkSpec) (hchunk : chunk.WellFormed) (opening : Opening)
    (events : List BodyEvent) :
    Script chunk.id chunk.stop chunk.committed (fetchVia chunk opening events).1
      (fetchVia chunk opening events).2 := by
  unfold fetchVia
  split
  · next hopen => exact ⟨trivial, by simp [hopen], fun h => by cases h⟩
  next stop hstop =>
  have hle := hchunk.committed_le stop hstop
  rw [hstop]
  split
  · next hdone =>
    refine ⟨trivial, ?_, fun _ => ⟨?_, .inl rfl⟩⟩
    · rintro _ ⟨⟩
      exact hle
    · rintro _ ⟨⟩
      exact Nat.le_antisymm hle hdone
  · have hidle (result) (hresult : result ≠ .ok .complete) :
        Script chunk.id (some stop) chunk.committed [] result := by
      refine ⟨trivial, ?_, fun h => absurd h hresult⟩
      rintro _ ⟨⟩
      exact hle
    cases opening with
    | cancelled => exact hidle _ (by simp)
    | refused => exact hidle _ (by simp)
    | opened => exact viaLoop_script hle _ events

end RDownloader
