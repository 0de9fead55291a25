import RDownloader.Db.ChunkLedger

/-!
# The rows of a download with sources (`rd-db/src/download_sources_store.rs`)

Source health, chunk marks and the one write that moves an offset back. `writeAll` is a series of
writes as a transfer makes them, each in its own transaction, ended by the first that fails.
-/

namespace RDownloader

/-- One row of `download_sources`. -/
structure DownloadSource where
  position : Nat
  failures : Nat := 0
  isolatedCode : Option String := none
  lastErrorCode : Option String := none
  deliveredBytes : Nat := 0
  deriving DecidableEq, Repr

/-- What an attempt learned about one source. -/
inductive SourceOutcome where
  | delivered (bytes : Nat)
  | failed (code : String)
  | isolated (code : String)
  deriving DecidableEq, Repr

/-- A delivery clears the failure count; an isolation is final. -/
def DownloadSource.record (source : DownloadSource) : SourceOutcome → DownloadSource
  | .delivered bytes =>
    { source with failures := 0, deliveredBytes := source.deliveredBytes + min bytes i64Max }
  | .failed code =>
    { source with failures := min (source.failures + 1) (2 ^ 32 - 1), lastErrorCode := some code }
  | .isolated code =>
    { source with isolatedCode := source.isolatedCode.or (some code), lastErrorCode := some code }

/-- What a transfer from sources writes down. -/
inductive LedgerWrite where
  | sourceDelivered (position bytes : Nat)
  | sourceFailed (position : Nat) (code : String)
  | sourceIsolated (position : Nat) (code : String)
  | chunkMarked (chunk : ChunkId) (position : Option Nat) (verified : Bool)
  | chunkRewound (chunk : ChunkId) (committed : Nat)
  deriving DecidableEq, Repr

/-- The rows of one download. -/
structure SourceLedger where
  download : DownloadId
  chunks : ChunkStore
  totalBytes : Option Nat
  sources : List DownloadSource

def ChunkRow.mark (row : ChunkRow) (position : Option Nat) (verified : Bool) : ChunkRow :=
  { row with sourcePosition := position.or row.sourcePosition, verified }

def ChunkRow.rewind (row : ChunkRow) (committed : Nat) (fits : committed ≤ i64Max) : ChunkRow :=
  { row.setCommitted committed fits with verified := false }

namespace ChunkStore

/-- `mark_chunk`. -/
def markChunk (store : ChunkStore) (id : ChunkId) (position : Option Nat) (verified : Bool) :
    Except String ChunkStore :=
  match store.row? id with
  | none => .error "chunk not found"
  | some _ => .ok (store.updateRow id (·.mark position verified))

/-- `rewind_chunk`: moves the offset back and clears the verification. -/
def rewindChunk (store : ChunkStore) (id : ChunkId) (committed : Nat) : Except String ChunkStore :=
  if fits : committed ≤ i64Max then
    match store.row? id with
    | none => .error "chunk not found"
    | some row =>
      if committed < row.spec.start ∨ row.spec.committed < committed then
        .error "invalid chunk rewind"
      else .ok ((store.updateRow id (·.rewind committed fits)).sumCommitted row.downloadId)
  else .error "chunk offset exceeds SQLite range"

end ChunkStore

namespace SourceLedger

/-- `record_outcome`. -/
def recordOutcome (ledger : SourceLedger) (position : Nat) (outcome : SourceOutcome) :
    Except String SourceLedger :=
  if ledger.sources.any (·.position = position) then
    .ok { ledger with
      sources := ledger.sources.map fun source =>
        if source.position = position then source.record outcome else source }
  else .error "download source not found"

/-- One write. A position the rows do not know has nothing to isolate. -/
def write (ledger : SourceLedger) : LedgerWrite → Except String SourceLedger
  | .sourceDelivered position bytes => ledger.recordOutcome position (.delivered bytes)
  | .sourceFailed position code => ledger.recordOutcome position (.failed code)
  | .sourceIsolated position code =>
    if ledger.sources.any (·.position = position) then
      ledger.recordOutcome position (.isolated code)
    else .ok ledger
  | .chunkMarked id position verified =>
    (ledger.chunks.markChunk id position verified).map ({ ledger with chunks := · })
  | .chunkRewound id committed =>
    (ledger.chunks.rewindChunk id committed).map ({ ledger with chunks := · })

/-- Writes in order up to the first that fails, which is write number `fault` if none does before.
Tells whether all were made. -/
def writeAll (ledger : SourceLedger) (fault : Option Nat) : List LedgerWrite → SourceLedger × Bool
  | [] => (ledger, true)
  | write :: writes =>
    if fault = some 0 then (ledger, false) else
    match ledger.write write with
    | .error _ => (ledger, false)
    | .ok ledger => ledger.writeAll (fault.map (· - 1)) writes

/-- The chunk rows. -/
def rows (ledger : SourceLedger) : List ChunkRow := ledger.chunks.chunks

def row? (ledger : SourceLedger) (id : ChunkId) : Option ChunkRow := ledger.chunks.row? id

end SourceLedger

/-! ## What a write changes -/

namespace SourceLedger

/-- The chunks of two ledgers are the same. -/
structure SameRows (ledger ledger' : SourceLedger) : Prop where
  rows : ledger'.rows = ledger.rows
  totalBytes : ledger'.totalBytes = ledger.totalBytes
  download : ledger'.download = ledger.download

/-- One row was changed by `f`, which leaves its key and its range alone. -/
structure Updated (ledger ledger' : SourceLedger) (id : ChunkId) (f : ChunkRow → ChunkRow) :
    Prop where
  rows : ledger'.rows = ledger.rows.map fun row => if row.spec.id = id then f row else row
  totalBytes : ledger'.totalBytes = ledger.totalBytes
  download : ledger'.download = ledger.download
  key : ∀ row, (f row).spec.id = row.spec.id
  start : ∀ row, (f row).spec.start = row.spec.start
  stop : ∀ row, (f row).spec.stop = row.spec.stop
  owner : ∀ row, (f row).downloadId = row.downloadId

variable {ledger ledger' ledger'' : SourceLedger} {id : ChunkId} {f : ChunkRow → ChunkRow}

theorem SameRows.refl (ledger : SourceLedger) : SameRows ledger ledger := ⟨rfl, rfl, rfl⟩

theorem SameRows.trans (h : SameRows ledger ledger') (h' : SameRows ledger' ledger'') :
    SameRows ledger ledger'' :=
  ⟨h'.rows.trans h.rows, h'.totalBytes.trans h.totalBytes, h'.download.trans h.download⟩

theorem SameRows.row? (h : SameRows ledger ledger') (id : ChunkId) :
    ledger'.row? id = ledger.row? id :=
  congrArg (List.find? fun row : ChunkRow => decide (row.spec.id = id)) h.rows

theorem Updated.row? (h : Updated ledger ledger' id f) (id' : ChunkId) :
    ledger'.row? id' = (ledger.row? id').map fun row => if id' = id then f row else row := by
  have hrows := congrArg (List.find? fun row : ChunkRow => decide (row.spec.id = id')) h.rows
  exact hrows.trans (ledger.chunks.row?_updateRow h.key id')

theorem Updated.mem (h : Updated ledger ledger' id f) (hmem : row' ∈ ledger'.rows) :
    ∃ row ∈ ledger.rows, row' = if row.spec.id = id then f row else row := by
  rw [h.rows] at hmem
  obtain ⟨row, hrow, rfl⟩ := List.mem_map.mp hmem
  exact ⟨row, hrow, rfl⟩

theorem Updated.ids (h : Updated ledger ledger' id f) :
    ledger'.rows.map (·.spec.id) = ledger.rows.map (·.spec.id) := by
  rw [h.rows, List.map_map]
  apply List.map_congr_left
  intro row _
  dsimp only [Function.comp_apply]
  split
  · exact h.key row
  · rfl

theorem Updated.congr_left (h : Updated ledger' ledger'' id f) (hsame : SameRows ledger ledger') :
    Updated ledger ledger'' id f :=
  { h with
    rows := hsame.rows ▸ h.rows
    totalBytes := h.totalBytes.trans hsame.totalBytes
    download := h.download.trans hsame.download }

theorem Updated.congr_right (h : Updated ledger ledger' id f) (hsame : SameRows ledger' ledger'') :
    Updated ledger ledger'' id f :=
  { h with
    rows := hsame.rows.trans h.rows
    totalBytes := hsame.totalBytes.trans h.totalBytes
    download := hsame.download.trans h.download }

theorem write_chunkMarked
    (h : ledger.write (.chunkMarked id position verified) = .ok ledger') :
    Updated ledger ledger' id (·.mark position verified) := by
  rw [write, ChunkStore.markChunk] at h
  split at h
  · cases h
  · obtain rfl := Except.ok.inj h
    exact ⟨rfl, rfl, rfl, fun _ => rfl, fun _ => rfl, fun _ => rfl, fun _ => rfl⟩

theorem write_chunkRewound (h : ledger.write (.chunkRewound id committed) = .ok ledger') :
    ∃ (row : ChunkRow) (fits : committed ≤ i64Max), ledger.row? id = some row ∧
      row.spec.start ≤ committed ∧ committed ≤ row.spec.committed ∧
      Updated ledger ledger' id (·.rewind committed fits) := by
  rw [write, ChunkStore.rewindChunk] at h
  split at h
  · next fits =>
    split at h
    · cases h
    · next row hrow =>
      split at h
      · cases h
      · next hrange =>
        rw [not_or, Nat.not_lt, Nat.not_lt] at hrange
        obtain rfl := Except.ok.inj h
        exact ⟨row, fits, hrow, hrange.1, hrange.2,
          rfl, rfl, rfl, fun _ => rfl, fun _ => rfl, fun _ => rfl, fun _ => rfl⟩
  · cases h

/-- An accepted checkpoint as a change of its row. -/
theorem checkpointed {chunks : ChunkStore}
    (h : ledger.chunks.checkpointChunk id offset = .ok chunks) :
    ∃ (row : ChunkRow) (fits : offset ≤ i64Max), ledger.row? id = some row ∧
      ChunkStore.Admits row offset ∧
      Updated ledger { ledger with chunks } id (·.setCommitted offset fits) := by
  unfold ChunkStore.checkpointChunk at h
  split at h
  · next fits =>
    split at h
    · cases h
    · next row hrow =>
      split at h
      · cases h
      · next hrefuse =>
        rw [not_or, not_or, Nat.not_lt, Nat.not_lt] at hrefuse
        obtain rfl := Except.ok.inj h
        refine ⟨row, fits, hrow, ⟨hrefuse.1, hrefuse.2.1, fun stop hstop => ?_, fits⟩,
          rfl, rfl, rfl, fun _ => rfl, fun _ => rfl, fun _ => rfl, fun _ => rfl⟩
        simpa [hstop] using hrefuse.2.2
  · cases h

end SourceLedger

namespace LedgerWrite

/-- The write is about a source, not about a chunk. -/
def OfSource : LedgerWrite → Prop
  | .chunkMarked .. | .chunkRewound .. => False
  | _ => True

end LedgerWrite

namespace SourceLedger

theorem recordOutcome_ok {ledger ledger' : SourceLedger}
    (h : ledger.recordOutcome position outcome = .ok ledger') : SameRows ledger ledger' := by
  unfold recordOutcome at h
  split at h
  · rw [← Except.ok.inj h]
    exact ⟨rfl, rfl, rfl⟩
  · cases h

theorem write_ofSource {ledger ledger' : SourceLedger} {write : LedgerWrite}
    (hsource : write.OfSource) (h : ledger.write write = .ok ledger') :
    SameRows ledger ledger' := by
  cases write with
  | sourceDelivered | sourceFailed => exact recordOutcome_ok h
  | sourceIsolated position code =>
    rw [SourceLedger.write] at h
    split at h
    · exact recordOutcome_ok h
    · rw [← Except.ok.inj h]
      exact .refl ledger
  | chunkMarked | chunkRewound => exact hsource.elim

/-- No write adds a chunk or takes one away. -/
theorem write_ids {ledger ledger' : SourceLedger} {write : LedgerWrite}
    (h : ledger.write write = .ok ledger') :
    ledger'.rows.map (·.spec.id) = ledger.rows.map (·.spec.id) := by
  cases write with
  | sourceDelivered | sourceFailed | sourceIsolated =>
    have hsame := write_ofSource (by trivial) h
    rw [hsame.rows]
  | chunkMarked => exact (write_chunkMarked h).ids
  | chunkRewound =>
    obtain ⟨row, fits, -, -, -, hupdated⟩ := write_chunkRewound h
    exact hupdated.ids

theorem writeAll_ids (ledger : SourceLedger) (fault : Option Nat) (writes : List LedgerWrite) :
    (ledger.writeAll fault writes).1.rows.map (·.spec.id) = ledger.rows.map (·.spec.id) := by
  induction writes generalizing ledger fault with
  | nil => rfl
  | cons write writes ih =>
    rw [writeAll]
    split
    · rfl
    · split
      · rfl
      · next next hnext => exact (ih next _).trans (write_ids hnext)

/-- Writes about sources, however many of them are made, leave the chunks alone. -/
theorem writeAll_ofSource {writes : List LedgerWrite} (hsource : ∀ write ∈ writes, write.OfSource)
    (ledger : SourceLedger) (fault : Option Nat) :
    SameRows ledger (ledger.writeAll fault writes).1 := by
  induction writes generalizing ledger fault with
  | nil => exact .refl ledger
  | cons write writes ih =>
    rw [writeAll]
    split
    · exact .refl ledger
    · split
      · exact .refl ledger
      · next next hnext =>
        have hfirst := write_ofSource (hsource write (List.mem_cons_self ..)) hnext
        exact hfirst.trans (ih (fun w hw => hsource w (List.mem_cons_of_mem _ hw)) next _)

/-- A series with one write about a chunk: that write is made on the rows as they were, or none is
and the series ended early. Where it is the last one, the series was finished with it. -/
theorem writeAll_chunk {before after : List LedgerWrite} {write : LedgerWrite}
    (hbefore : ∀ w ∈ before, w.OfSource) (hafter : ∀ w ∈ after, w.OfSource)
    (ledger : SourceLedger) (fault : Option Nat) :
    let last := ledger.writeAll fault (before ++ write :: after)
    (last.2 = false ∧ SameRows ledger last.1) ∨
    ∃ reached written, SameRows ledger reached ∧ reached.write write = .ok written ∧
      SameRows written last.1 ∧ (after = [] → last.2 = true) := by
  induction before generalizing ledger fault with
  | nil =>
    rw [List.nil_append, writeAll]
    split
    · exact .inl ⟨rfl, .refl ledger⟩
    · split
      · exact .inl ⟨rfl, .refl ledger⟩
      · next written hwritten =>
        refine .inr ⟨ledger, written, .refl ledger, hwritten, writeAll_ofSource hafter written _, ?_⟩
        rintro rfl
        rfl
  | cons first before ih =>
    rw [List.cons_append, writeAll]
    split
    · exact .inl ⟨rfl, .refl ledger⟩
    · split
      · exact .inl ⟨rfl, .refl ledger⟩
      · next next hnext =>
        have hfirst := write_ofSource (hbefore first (List.mem_cons_self ..)) hnext
        rcases ih (fun w hw => hbefore w (List.mem_cons_of_mem _ hw)) next (fault.map (· - 1)) with
          ⟨hmade, hsame⟩ | ⟨reached, written, hreached, hwritten, hlast⟩
        · exact .inl ⟨hmade, hfirst.trans hsame⟩
        · exact .inr ⟨reached, written, hfirst.trans hreached, hwritten, hlast⟩

/-- The same, for a mark. -/
theorem writeAll_marked {before after : List LedgerWrite}
    (hbefore : ∀ w ∈ before, w.OfSource) (hafter : ∀ w ∈ after, w.OfSource)
    (ledger : SourceLedger) (fault : Option Nat) (id : ChunkId) (position : Option Nat)
    (verified : Bool) :
    let last := ledger.writeAll fault (before ++ .chunkMarked id position verified :: after)
    (last.2 = false ∧ SameRows ledger last.1) ∨
      Updated ledger last.1 id (·.mark position verified) ∧ (after = [] → last.2 = true) := by
  rcases writeAll_chunk hbefore hafter ledger fault with
    h | ⟨reached, written, hreached, hw, hlast, hmade⟩
  · exact .inl h
  · exact .inr ⟨(write_chunkMarked hw).congr_left hreached |>.congr_right hlast, hmade⟩

/-- The same, for a chunk moved back at the end of the series. -/
theorem writeAll_rewound {before : List LedgerWrite}
    (hbefore : ∀ w ∈ before, w.OfSource) (ledger : SourceLedger) (fault : Option Nat)
    (id : ChunkId) (committed : Nat) :
    let last := ledger.writeAll fault (before ++ [.chunkRewound id committed])
    (last.2 = false ∧ SameRows ledger last.1) ∨
      ∃ (row : ChunkRow) (fits : committed ≤ i64Max), ledger.row? id = some row ∧
        row.spec.start ≤ committed ∧ committed ≤ row.spec.committed ∧
        Updated ledger last.1 id (·.rewind committed fits) ∧ last.2 = true := by
  rcases writeAll_chunk hbefore (List.forall_mem_nil _) ledger fault with
    h | ⟨reached, written, hreached, hw, hlast, hmade⟩
  · exact .inl h
  · obtain ⟨row, fits, hrow, hlo, hhi, hupdated⟩ := write_chunkRewound hw
    rw [hreached.row?] at hrow
    exact .inr ⟨row, fits, hrow, hlo, hhi, hupdated.congr_left hreached |>.congr_right hlast,
      hmade rfl⟩

/-! ### A series that was finished -/

theorem marked_of_writeAll {before after : List LedgerWrite}
    (hbefore : ∀ w ∈ before, w.OfSource) (hafter : ∀ w ∈ after, w.OfSource)
    {ledger ledger' : SourceLedger} {id : ChunkId}
    (h : ledger.writeAll fault (before ++ .chunkMarked id position verified :: after) =
      (ledger', true)) : Updated ledger ledger' id (·.mark position verified) := by
  rcases writeAll_marked hbefore hafter ledger fault id position verified with
    ⟨hmade, -⟩ | ⟨hupdated, -⟩
  · rw [h] at hmade
    cases hmade
  · rwa [h] at hupdated

theorem rewound_of_writeAll {before : List LedgerWrite}
    (hbefore : ∀ w ∈ before, w.OfSource) {ledger ledger' : SourceLedger} {id : ChunkId}
    (h : ledger.writeAll fault (before ++ [.chunkRewound id committed]) = (ledger', true)) :
    ∃ (row : ChunkRow) (fits : committed ≤ i64Max), ledger.row? id = some row ∧
      row.spec.start ≤ committed ∧ committed ≤ row.spec.committed ∧
      Updated ledger ledger' id (·.rewind committed fits) := by
  rcases writeAll_rewound hbefore ledger fault id committed with
    ⟨hmade, -⟩ | ⟨row, fits, hrow, hlo, hhi, hupdated, -⟩
  · rw [h] at hmade
    cases hmade
  · rw [h] at hupdated
    exact ⟨row, fits, hrow, hlo, hhi, hupdated⟩

theorem same_of_writeAll {writes : List LedgerWrite} (hsource : ∀ w ∈ writes, w.OfSource)
    {ledger ledger' : SourceLedger} (h : ledger.writeAll fault writes = (ledger', true)) :
    SameRows ledger ledger' := by
  have hsame := writeAll_ofSource hsource ledger fault
  rwa [h] at hsame

end SourceLedger
end RDownloader
