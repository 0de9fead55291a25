import RDownloader.Scheduler.SourceSteps

/-!
# Who is held to account for a refused piece

`settle_complete` blames the source whose fetch ended the chunk, and a restart the one named for it
last. Either has sent what lies between where its fetch began and the end of the chunk. Of a bad
piece wholly before that it may have sent nothing.
-/

namespace RDownloader

/-- A fetch that stands at the end of its chunk has come to it. -/
theorem WriteEffect.Script.stop_reached {id : ChunkId} {stop : Option Nat}
    {effects : List WriteEffect} (h : Script id stop position effects result)
    (hstop : stop = some last) (hle : last ≤ position) :
    stop = some (WriteEffect.reached position effects) := by
  have hbounded := h.bounded last hstop
  have hreached := WriteEffect.le_reached position effects
  rw [hstop, Option.some.injEq]
  omega

namespace PieceHashes

variable {pieces : PieceHashes} {file file' : Nat → UInt8}

/-- The refused piece is the one refused of every shorter range that holds it. -/
theorem firstBadOf_cut {first n : Nat}
    (h : pieces.firstBadOf file stop total (List.range' first n) = some bad) :
    ∃ index, bad = (pieces.range index total).1 ∧
      (pieces.range index total).1 < (pieces.range index total).2 ∧
      (pieces.range index total).2 ≤ stop ∧ ∀ upto, (pieces.range index total).2 ≤ upto →
        pieces.firstBadOf file upto total (List.range' first n) = some bad := by
  induction n generalizing first with
  | zero => cases h
  | succ n ih =>
    rw [List.range'_succ, firstBadOf] at h
    dsimp only at h
    split at h
    · cases h
    next hgo =>
    rw [not_or, Nat.not_lt, Nat.not_le] at hgo
    split at h
    · next hmatch =>
      obtain ⟨index, hbad, hnonempty, hstop, hcut⟩ := ih h
      refine ⟨index, hbad, hnonempty, hstop, fun upto hle => ?_⟩
      have hearlier := firstBadOf_some (hcut upto hle)
      obtain ⟨other, hlo, -, -, hother, hotherStop, -⟩ := hearlier
      have hmono := (pieces.range_mono total (Nat.le_of_succ_le hlo)).2
      rw [List.range'_succ, firstBadOf]
      dsimp only
      rw [if_neg (by omega), if_pos hmatch]
      exact hcut upto hle
    · next hmismatch =>
      refine ⟨first, (Option.some.inj h).symm, hgo.2, hgo.1, fun upto hle => ?_⟩
      rw [List.range'_succ, firstBadOf]
      dsimp only
      rw [if_neg (by omega), if_neg hmismatch]
      exact h

theorem firstBadPiece_cut (h : pieces.firstBadPiece file chunk total = some bad) :
    ∃ last, bad < last ∧ last ≤ chunk.stop.getD total ∧ last ≤ min (bad + pieces.length) total ∧
      ∀ upto, last ≤ upto →
        pieces.firstBadPiece file { chunk with stop := some upto } total = some bad := by
  obtain ⟨index, rfl, hnonempty, hstop, hcut⟩ := firstBadOf_cut h
  refine ⟨_, hnonempty, hstop, ?_, hcut⟩
  simp only [range, saturatingMul, saturatingAdd] at hnonempty ⊢
  omega

theorem firstBadOf_congr {indices : List Nat}
    (h : ∀ index ∈ indices, (pieces.range index total).1 < (pieces.range index total).2 →
      (pieces.range index total).2 ≤ stop →
      pieces.matchesHash file total index = pieces.matchesHash file' total index) :
    pieces.firstBadOf file stop total indices = pieces.firstBadOf file' stop total indices := by
  induction indices with
  | nil => rfl
  | cons index indices ih =>
    rw [firstBadOf, firstBadOf]
    dsimp only
    split
    · rfl
    · next hgo =>
      rw [not_or, Nat.not_lt, Nat.not_le] at hgo
      rw [h index (List.mem_cons_self ..) hgo.2 hgo.1,
        ih fun other hmem => h other (List.mem_cons_of_mem _ hmem)]

/-- What is refused of a chunk depends on its bytes alone. -/
theorem firstBadPiece_congr (h : ∀ offset, chunk.start ≤ offset →
      offset < chunk.stop.getD total → file offset = file' offset) :
    pieces.firstBadPiece file chunk total = pieces.firstBadPiece file' chunk total := by
  refine firstBadOf_congr fun index hmem hnonempty hstop => matchesHash_congr fun offset hlo hhi => ?_
  obtain ⟨hpos, hstart⟩ := range_fst_of_nonempty hnonempty
  have hfirst := (List.mem_range'_1.mp hmem).1
  rw [Nat.max_eq_left hpos, divCeil_le_iff hpos, ← hstart] at hfirst
  exact h offset (Nat.le_trans hfirst hlo) (Nat.lt_of_lt_of_le hhi hstop)

end PieceHashes

/-! ## What a source has sent of a chunk -/

namespace SourceTransfer

/-- The source has sent the byte at `offset`. -/
def Sent (transfer : SourceTransfer) (position offset : Nat) : Prop :=
  ∃ delivery ∈ transfer.deliveries, delivery.position = position ∧ delivery.start ≤ offset ∧
    offset < delivery.start + delivery.length

/-- The pieces a run over the rows is checked by. -/
def pieces? (transfer : SourceTransfer) (total : Nat) : Option PieceHashes :=
  transfer.pieceHashes.filter fun pieces =>
    chunksAligned (transfer.ledger.rows.map (·.spec)) pieces.length total

/-- Of the piece that is refused of the chunk up to `upto`, if one is, the source sent a byte. -/
def Accounted (transfer : SourceTransfer) (chunk : ChunkSpec) (upto position : Nat) : Prop :=
  ∀ total pieces bad, transfer.ledger.totalBytes = some total →
    transfer.pieces? total = some pieces →
    pieces.firstBadPiece transfer.file { chunk with stop := some upto } total = some bad →
    ∃ offset, bad ≤ offset ∧ offset < min (bad + pieces.length) total ∧
      transfer.Sent position offset

/-- The source sent the end of what is recorded of the chunk, and answers for what was there
before. -/
def Answers (transfer : SourceTransfer) (chunk : ChunkSpec) (position : Nat) : Prop :=
  ∃ start, start ≤ chunk.committed ∧
    (∀ offset, start ≤ offset → offset < chunk.committed → transfer.Sent position offset) ∧
    transfer.Accounted chunk start position

/-- A source whose answer brings a chunk to its end has sent a byte of the piece that is refused of
what is already there, if one is. -/
def Answerable (transfer : SourceTransfer) : SourceEvent → Prop
  | .dispatch answer _ => ∀ run waiting chunk rest source pool, transfer.run = some run →
      run.phase = .dispatching waiting → run.pending = chunk :: rest →
      run.pool.pick chunk.committed = some (source, pool) →
      chunk.stop = some (WriteEffect.reached chunk.committed
        (run.spawnFetch chunk source answer).effects) →
      ∀ pieces bad, run.pieces = some pieces →
        pieces.firstBadPiece transfer.file { chunk with stop := some chunk.committed } run.total =
          some bad →
        ∃ offset, bad ≤ offset ∧ offset < min (bad + pieces.length) run.total ∧
          transfer.Sent source.position offset
  | _ => True

end SourceTransfer

/-- What the source of a fetch has sent, and what it answers for should the fetch end the chunk. -/
structure Fetch.Traced (task : Fetch) (transfer : SourceTransfer) : Prop where
  sent : ∀ offset, task.startedAt ≤ offset → offset < task.written →
    transfer.Sent task.position offset
  accounted : task.chunk.stop = some (WriteEffect.reached task.written task.effects) →
    transfer.Accounted task.chunk task.startedAt task.position

namespace SourceTransfer

/-- The row's source answers for it, should it be complete and not yet checked. -/
def RowTraced (transfer : SourceTransfer) (row : ChunkRow) : Prop :=
  ∀ position, row.sourcePosition = some position → row.verified = false →
    row.spec.isComplete → transfer.Answers row.spec position

structure Traced (transfer : SourceTransfer) : Prop where
  rows : ∀ row ∈ transfer.ledger.rows, transfer.RowTraced row
  tasks : ∀ run, transfer.run = some run → ∀ task ∈ run.tasks, task.Traced transfer
  pieces : ∀ run, transfer.run = some run → run.pieces = transfer.pieces? run.total
  blames : ∀ blame ∈ transfer.blames, ∃ offset, blame.start ≤ offset ∧ offset < blame.stop ∧
    transfer.Sent blame.position offset

variable {transfer next : SourceTransfer} {chunk : ChunkSpec}

/-- A source whose bytes reach the end of the chunk has sent one of the refused piece. -/
theorem sent_of_firstBadPiece
    (hsent : ∀ offset, start ≤ offset → offset < upto → transfer.Sent position offset)
    (haccounted : transfer.Accounted chunk start position)
    (htotal : transfer.ledger.totalBytes = some total)
    (hpieces : transfer.pieces? total = some pieces)
    (hbad : pieces.firstBadPiece transfer.file chunk total = some bad)
    (hend : chunk.stop.getD total ≤ upto) :
    ∃ offset, bad ≤ offset ∧ offset < min (bad + pieces.length) total ∧
      transfer.Sent position offset := by
  obtain ⟨last, hlt, hstop, hle, hcut⟩ := PieceHashes.firstBadPiece_cut hbad
  by_cases hbelow : last ≤ start
  · exact haccounted total pieces bad htotal hpieces (hcut start hbelow)
  · exact ⟨max bad start, Nat.le_max_left .., by omega, hsent _ (Nat.le_max_right ..) (by omega)⟩

/-! ### What a step leaves of it -/

/-- The rows have the ranges they had, and what was sent stays sent. -/
structure Continues (transfer next : SourceTransfer) : Prop where
  totalBytes : next.ledger.totalBytes = transfer.ledger.totalBytes
  pieces? : ∀ total, next.pieces? total = transfer.pieces? total
  deliveries : ∀ delivery ∈ transfer.deliveries, delivery ∈ next.deliveries

theorem Continues.sent (h : transfer.Continues next) (hsent : transfer.Sent position offset) :
    next.Sent position offset := by
  obtain ⟨delivery, hmem, hrest⟩ := hsent
  exact ⟨delivery, h.deliveries delivery hmem, hrest⟩

theorem Continues.accounted (h : transfer.Continues next)
    (haccounted : transfer.Accounted chunk upto position)
    (hfile : ∀ offset, chunk.start ≤ offset → offset < upto →
      next.file offset = transfer.file offset) : next.Accounted chunk upto position := by
  intro total pieces bad htotal hpieces hbad
  rw [h.totalBytes] at htotal
  rw [h.pieces?] at hpieces
  rw [PieceHashes.firstBadPiece_congr hfile] at hbad
  obtain ⟨offset, hlo, hhi, hsent⟩ := haccounted total pieces bad htotal hpieces hbad
  exact ⟨offset, hlo, hhi, h.sent hsent⟩

theorem Continues.answers (h : transfer.Continues next) (hanswers : transfer.Answers chunk position)
    (hfile : ∀ offset, chunk.start ≤ offset → offset < chunk.committed →
      next.file offset = transfer.file offset) : next.Answers chunk position := by
  obtain ⟨start, hle, hsent, haccounted⟩ := hanswers
  refine ⟨start, hle, fun offset hlo hhi => h.sent (hsent offset hlo hhi), ?_⟩
  exact h.accounted haccounted fun offset hlo hhi => hfile offset hlo (Nat.lt_of_lt_of_le hhi hle)

theorem Continues.task {task : Fetch} (h : transfer.Continues next) (htask : task.Traced transfer)
    (hfile : ∀ offset, task.chunk.start ≤ offset → offset < task.startedAt →
      next.file offset = transfer.file offset) : task.Traced next where
  sent := fun offset hlo hhi => h.sent (htask.sent offset hlo hhi)
  accounted := fun hstop => h.accounted (htask.accounted hstop) hfile

theorem aligned_updated {ledger ledger' : SourceLedger} {f : ChunkRow → ChunkRow}
    (h : SourceLedger.Updated ledger ledger' key f) (align total : Nat) :
    chunksAligned (ledger'.rows.map (·.spec)) align total =
      chunksAligned (ledger.rows.map (·.spec)) align total := by
  unfold chunksAligned
  rw [h.rows, List.map_map, List.all_map, List.all_map]
  congr 1
  funext row
  simp only [Function.comp_apply]
  split
  · rw [h.start, h.stop]
  · rfl

/-- At most one row has changed, within its range. -/
theorem Continues.updated {ledger : SourceLedger} {f : ChunkRow → ChunkRow}
    (h : SourceLedger.Updated transfer.ledger ledger key f) (hledger : next.ledger = ledger)
    (hhashes : next.pieceHashes = transfer.pieceHashes)
    (hdeliveries : ∀ delivery ∈ transfer.deliveries, delivery ∈ next.deliveries) :
    transfer.Continues next where
  totalBytes := by rw [hledger, h.totalBytes]
  pieces? := by
    intro total
    unfold SourceTransfer.pieces?
    simp only [hledger, hhashes, aligned_updated h]
  deliveries := hdeliveries

/-- One row has changed, and what is known of it. -/
structure RowsTraced (transfer : SourceTransfer) (ledger : SourceLedger) (key : ChunkId)
    (f : ChunkRow → ChunkRow) : Prop where
  updated : SourceLedger.Updated transfer.ledger ledger key f
  row : ∀ row, transfer.ledger.row? key = some row → transfer.RowTraced (f row)

theorem Traced.same (h : transfer.Traced) {ledger : SourceLedger}
    (hsame : SourceLedger.SameRows transfer.ledger ledger) :
    transfer.RowsTraced ledger 0 fun row => row :=
  ⟨hsame.updated 0, fun row hrow => h.rows row (SourceLedger.mem_rows hrow).1⟩

theorem Traced.change (h : transfer.Traced) (hlaid : transfer.ledger.Laid) {ledger : SourceLedger}
    {run : SourceRun} {f : ChunkRow → ChunkRow} (hrows : transfer.RowsTraced ledger key f)
    (htasks : ∀ task ∈ run.tasks, task.Traced transfer)
    (hpieces : run.pieces = transfer.pieces? run.total) {blames : List Blame}
    (hblames : ∀ blame ∈ blames, ∃ offset, blame.start ≤ offset ∧ offset < blame.stop ∧
      transfer.Sent blame.position offset) :
    Traced { transfer with ledger, blames, run := some run } := by
  have hcont : transfer.Continues { transfer with ledger, blames, run := some run } :=
    .updated hrows.updated rfl rfl fun _ hmem => hmem
  refine ⟨fun row' hmem position hposition hverified hcomplete => ?_, ?_, ?_, ?_⟩
  · refine hcont.answers ?_ fun _ _ _ => rfl
    obtain ⟨row, hrow, rfl⟩ := hrows.updated.mem hmem
    by_cases hid : row.spec.id = key
    · rw [if_pos hid] at hposition hverified hcomplete ⊢
      exact hrows.row row (hid ▸ hlaid.row? hrow) position hposition hverified hcomplete
    · rw [if_neg hid] at hposition hverified hcomplete ⊢
      exact h.rows row hrow position hposition hverified hcomplete
  · rintro _ ⟨⟩ task hmem
    exact hcont.task (htasks task hmem) fun _ _ _ => rfl
  · rintro _ ⟨⟩
    rw [hcont.pieces?]
    exact hpieces
  · intro blame hmem
    obtain ⟨offset, hlo, hhi, hsent⟩ := hblames blame hmem
    exact ⟨offset, hlo, hhi, hcont.sent hsent⟩

theorem Traced.keep (h : transfer.Traced) (hsound : transfer.Sound) {run run' : SourceRun}
    (running : transfer.run = some run) (hkeeps : run.Keeps run') :
    Traced { transfer with run := some run' } := by
  refine h.change hsound.laid (h.same (.refl _)) ?_ ?_ h.blames
  · rw [hkeeps.tasks]
    exact h.tasks run running
  · rw [hkeeps.pieces, hkeeps.total]
    exact h.pieces run running

/-- A booking that leaves the fetches and the request alone. -/
theorem Traced.book (h : transfer.Traced) (hlaid : transfer.ledger.Laid) {run : SourceRun}
    (htasks : ∀ task ∈ run.tasks, task.Traced transfer)
    (hpieces : run.pieces = transfer.pieces? run.total) {booking : Booking} {fault : Option Nat}
    (hkeeps : run.Keeps booking.next ∧ run.Keeps booking.base)
    (hrows : ∃ key f, transfer.RowsTraced (transfer.ledger.writeAll fault booking.writes).1 key f)
    (hblame : ∀ blame, booking.blame = some blame → ∃ offset, blame.start ≤ offset ∧
      offset < blame.stop ∧ transfer.Sent blame.position offset) :
    (transfer.book booking fault).Traced := by
  obtain ⟨key, f, hrows⟩ := hrows
  obtain ⟨hnext, hbase⟩ := hkeeps
  have hblames : ∀ blame ∈ transfer.blames ++ booking.blame.toList, ∃ offset,
      blame.start ≤ offset ∧ offset < blame.stop ∧ transfer.Sent blame.position offset := by
    intro blame hmem
    rcases List.mem_append.mp hmem with hmem | hmem
    · exact h.blames blame hmem
    · exact hblame blame (Option.mem_toList.mp hmem)
  unfold SourceTransfer.book
  dsimp only
  split
  · refine h.change hlaid hrows ?_ ?_ hblames
    · rw [hnext.tasks]; exact htasks
    · rw [hnext.pieces, hnext.total]; exact hpieces
  · refine h.change hlaid hrows ?_ ?_ hblames
    · change ∀ task ∈ booking.base.tasks, _
      rw [hbase.tasks]; exact htasks
    · change booking.base.pieces = transfer.pieces? booking.base.total
      rw [hbase.pieces, hbase.total]; exact hpieces

theorem Traced.rowsMarked (h : transfer.Traced) {before after : List LedgerWrite}
    (hbefore : ∀ w ∈ before, w.OfSource) (hafter : ∀ w ∈ after, w.OfSource) {key : ChunkId}
    {position : Option Nat} {verified : Bool}
    (hrow : ∀ row, transfer.ledger.row? key = some row →
      transfer.RowTraced (row.mark position verified)) (fault : Option Nat) :
    ∃ key' f, transfer.RowsTraced (transfer.ledger.writeAll fault
      (before ++ .chunkMarked key position verified :: after)).1 key' f := by
  rcases SourceLedger.writeAll_marked hbefore hafter transfer.ledger fault key position verified with
    ⟨-, hsame⟩ | ⟨hupdated, -⟩
  · exact ⟨0, _, h.same hsame⟩
  · exact ⟨key, _, hupdated, hrow⟩

/-- A chunk moved back before its end is not complete. -/
theorem Traced.rowsRewound (h : transfer.Traced) {before : List LedgerWrite}
    (hbefore : ∀ w ∈ before, w.OfSource) {key : ChunkId} {bad : Nat}
    (hrow : ∀ row, transfer.ledger.row? key = some row →
      ∃ stop, row.spec.stop = some stop ∧ bad < stop) (fault : Option Nat) :
    ∃ key' f, transfer.RowsTraced (transfer.ledger.writeAll fault
      (before ++ [.chunkRewound key bad])).1 key' f := by
  rcases SourceLedger.writeAll_rewound hbefore transfer.ledger fault key bad with
    ⟨-, hsame⟩ | ⟨row, fits, hfound, -, -, hupdated, -⟩
  · exact ⟨0, _, h.same hsame⟩
  · refine ⟨key, _, hupdated, fun row hfound position _ _ hcomplete => ?_⟩
    obtain ⟨stop, hstop, hlt⟩ := hrow row hfound
    have hspec : (row.rewind bad fits).spec = { row.spec with committed := bad } := rfl
    rw [hspec, ChunkSpec.isComplete] at hcomplete
    dsimp only at hcomplete
    rw [hstop, Option.any_some, decide_eq_true_eq] at hcomplete
    exact absurd hcomplete (Nat.not_le.mpr hlt)

/-! ## Every step -/

/-- What the pieces of a run are, of a bounded row. -/
theorem Traced.pieces_eq (h : transfer.Traced) (hsound : transfer.Sound) {run : SourceRun}
    (running : transfer.run = some run) {pieces : PieceHashes}
    (hpieces : run.pieces = some pieces) (hmem : row ∈ transfer.ledger.rows) :
    transfer.pieces? run.total = some pieces ∧ transfer.ledger.totalBytes = some run.total ∧
      ∃ stop, row.spec.stop = some stop := by
  have hrun := hsound.run run running
  have hbounded := (hrun.pieces pieces hpieces).2 row hmem
  exact ⟨(h.pieces run running).symm.trans hpieces, hrun.total row hmem hbounded,
    Option.ne_none_iff_exists'.mp hbounded⟩

theorem Traced.queue (h : transfer.Traced) (hsound : transfer.Sound) {run : SourceRun}
    (running : transfer.run = some run) (phase : run.phase = .queueing (chunk :: rest))
    (unreadable : Bool) (fault : Option Nat) :
    (transfer.book (run.queueChunk transfer.file unreadable chunk rest) fault).Traced := by
  have hrun := hsound.run run running
  have hchunk : chunk ∈ run.queued := (SourceRun.idle_queueing phase).1 ▸ List.mem_cons_self ..
  have hidle := SourceRun.mem_idle_of_queued hchunk
  have hkeeps := run.queueChunk_keeps transfer.file unreadable chunk rest
  obtain ⟨row, hrow, hspec⟩ := hrun.recorded chunk hidle
  have hmem := (SourceLedger.mem_rows hrow).1
  refine h.book hsound.laid (h.tasks run running) (h.pieces run running) hkeeps ?_ ?_
  · unfold SourceRun.queueChunk
    dsimp only
    split
    · exact ⟨0, _, h.same (.refl _)⟩
    split
    · next pieces deliveredBy hpieces hmark =>
      split
      · exact ⟨0, _, h.same (.refl _)⟩
      · split
        · exact h.rowsMarked (List.forall_mem_nil _) (List.forall_mem_nil _)
            (fun _ _ _ _ hverified => by cases hverified) fault
        · next bad hbad =>
          obtain ⟨-, -, stop, hstop⟩ := h.pieces_eq hsound running hpieces hmem
          obtain ⟨last, hlt, hle, -⟩ := PieceHashes.firstBadPiece_cut hbad
          rw [← hspec, hstop, Option.getD_some] at hle
          refine h.rowsRewound (ofSource_blamed _ _) (fun row' hrow' => ?_) fault
          obtain rfl := Option.some.inj (hrow.symm.trans hrow')
          exact ⟨stop, hstop, by omega⟩
    · exact ⟨0, _, h.same (.refl _)⟩
  · unfold SourceRun.queueChunk
    dsimp only
    intro blame hblame
    split at hblame
    · cases hblame
    next hdone =>
    split at hblame
    · next pieces deliveredBy hpieces hmark =>
      split at hblame
      · cases hblame
      · split at hblame
        · cases hblame
        · next bad hbad =>
          -- the source named for the unchecked chunk is the one held to account
          have hmarks := hrun.marks chunk hchunk row hrow
          obtain ⟨hpieces?, htotal, stop, hstop⟩ := h.pieces_eq hsound running hpieces hmem
          have hcomplete : row.spec.isComplete = true := by
            rw [hspec]
            simpa using hdone
          have hend : chunk.stop.getD run.total ≤ row.spec.committed := by
            rw [ChunkSpec.isComplete, hstop, Option.any_some, decide_eq_true_eq] at hcomplete
            rw [← hspec, hstop]
            exact hcomplete
          cases hverified : row.verified with
          | true =>
            rw [hverified, if_pos rfl, hmark] at hmarks
            cases hmarks
          | false =>
            rw [hverified, hmark] at hmarks
            have hnamed : deliveredBy = row.sourcePosition := Option.some.inj hmarks
            cases hdelivered : deliveredBy with
            | none =>
              rw [hdelivered] at hblame
              simp at hblame
            | some position =>
              rw [hdelivered] at hblame hnamed
              obtain ⟨start, -, hsent, haccounted⟩ :=
                h.rows row hmem position hnamed.symm hverified hcomplete
              rw [hspec] at haccounted
              have hfound := sent_of_firstBadPiece hsent haccounted htotal hpieces? hbad hend
              dsimp only at hblame
              split at hblame
              · obtain rfl := Option.some.inj hblame
                simpa [SourceRun.pieceEnd, hpieces] using hfound
              · cases hblame
    · cases hblame

theorem Traced.dispatch (h : transfer.Traced) (hsound : transfer.Sound) {run : SourceRun}
    (running : transfer.run = some run) (phase : run.phase = .dispatching waiting)
    (pending : run.pending = chunk :: rest)
    (hallowed : transfer.Answerable (.dispatch answer fault)) :
    (transfer.book (run.dispatchChunk answer chunk rest waiting) fault).Traced := by
  have hrun := hsound.run run running
  have hidle : chunk ∈ run.idle := by
    rw [(SourceRun.idle_dispatching phase).2, pending]
    exact List.mem_cons_self ..
  obtain ⟨row, hrow, hspec⟩ := hrun.recorded chunk hidle
  have hmem := (SourceLedger.mem_rows hrow).1
  have hwf := hsound.laid.wellFormed row hmem
  rw [hspec] at hwf
  unfold SourceRun.dispatchChunk
  split
  · rw [book_silent]
    exact h.keep hsound running ((SourceRun.Keeps.refl run).with ..)
  · next source pool hpick =>
    have hon := run.spawnFetch_on source answer hspec hwf none
    have haccounted (hstop : chunk.stop = some (WriteEffect.reached chunk.committed
        (run.spawnFetch chunk source answer).effects)) :
        transfer.Accounted chunk chunk.committed source.position := by
      intro total pieces bad htotal hpieces hbad
      have hbounded : row.spec.stop ≠ none := by simp [hspec, hstop]
      obtain rfl := Option.some.inj ((hrun.total row hmem hbounded).symm.trans htotal)
      exact hallowed run waiting chunk rest source pool running phase pending hpick hstop pieces bad
        ((h.pieces run running).trans hpieces) hbad
    have hrows : ∃ key f, transfer.RowsTraced (transfer.ledger.writeAll fault
        [.chunkMarked chunk.id (some source.position) false]).1 key f := by
      refine h.rowsMarked (List.forall_mem_nil _) (List.forall_mem_nil _)
        (fun row' hrow' position hposition _ hcomplete => ?_) fault
      obtain rfl := Option.some.inj (hrow.symm.trans hrow')
      obtain rfl := Option.some.inj hposition
      change row.spec.isComplete = true at hcomplete
      change transfer.Answers row.spec source.position
      rw [hspec] at hcomplete ⊢
      refine ⟨chunk.committed, Nat.le_refl _, fun offset hlo hhi => by omega, haccounted ?_⟩
      obtain ⟨stop, hstop⟩ : ∃ stop, chunk.stop = some stop := by
        cases hstop : chunk.stop with
        | none => simp [ChunkSpec.isComplete, hstop] at hcomplete
        | some stop => exact ⟨stop, rfl⟩
      have hle : stop ≤ chunk.committed := by
        simpa [ChunkSpec.isComplete, hstop] using hcomplete
      exact hon.script.stop_reached hstop hle
    obtain ⟨key, f, hrows⟩ := hrows
    unfold SourceTransfer.book
    dsimp only [Option.toList_none]
    rw [List.append_nil]
    split
    · refine h.change hsound.laid hrows (fun task htask => ?_) ?_ h.blames
      case refine_2 => exact h.pieces run running
      rcases List.mem_append.mp htask with htask | htask
      · exact h.tasks run running task htask
      · obtain rfl := List.mem_singleton.mp htask
        refine ⟨fun offset hlo hhi => ?_, haccounted⟩
        exact absurd hhi (Nat.not_lt.mpr hlo)
    · refine h.change hsound.laid hrows ?_ ?_ h.blames
      · exact h.tasks run running
      · exact h.pieces run running

theorem Traced.join (h : transfer.Traced) (hsound : transfer.Sound) {run : SourceRun}
    (running : transfer.run = some run) (task_eq : run.tasks[index]? = some task)
    (done : task.effects = []) (unreadable : Bool) (fault : Option Nat) :
    (transfer.book ((run.joined index task).settle transfer.file unreadable task) fault).Traced := by
  have hrun := hsound.run run running
  have htask := List.mem_of_getElem? task_eq
  obtain ⟨row, hrow, hon⟩ := hrun.fetching task htask
  have hmem := (SourceLedger.mem_rows hrow).1
  have hstop : row.spec.stop = task.chunk.stop := by rw [hon.same]
  have htraced := h.tasks run running task htask
  have hkeeps := (run.joined index task).settle_keeps transfer.file unreadable task
  have htasks : ∀ other ∈ (run.joined index task).tasks, other.Traced transfer :=
    fun other hother => h.tasks run running other ((List.eraseIdx_sublist ..).subset hother)
  refine h.book hsound.laid htasks (h.pieces run running) hkeeps ?_ ?_
  · unfold SourceRun.settle
    split
    · unfold SourceRun.settleComplete
      dsimp only
      split
      · exact ⟨0, _, h.same (.refl _)⟩
      split
      · refine h.rowsMarked (List.forall_mem_nil _) (ofSource_delivered _ _)
          (fun row' hrow' position hposition _ hcomplete => ?_) fault
        -- the mark names the source the dispatch named
        obtain rfl := Option.some.inj (hrow.symm.trans hrow')
        obtain rfl := Option.some.inj hposition
        exact h.rows row hmem _ hon.named hon.unverified hcomplete
      · next bad hbad =>
        obtain ⟨pieces, hpieces, hbad⟩ := Option.bind_eq_some_iff.mp hbad
        obtain ⟨-, -, stop, hlast⟩ := h.pieces_eq hsound running hpieces hmem
        obtain ⟨last, hlt, hle, -⟩ := PieceHashes.firstBadPiece_cut hbad
        dsimp only at hle
        rw [← hstop, hlast, Option.getD_some] at hle
        refine h.rowsRewound (ofSource_blamed _ _) (fun row' hrow' => ?_) fault
        obtain rfl := Option.some.inj (hrow.symm.trans hrow')
        exact ⟨stop, hlast, by omega⟩
    · exact ⟨0, _, h.same (.refl _)⟩
    · exact ⟨0, _, h.same (.refl _)⟩
    · exact ⟨0, _, h.same (.refl _)⟩
    · exact ⟨0, _, h.same (SourceLedger.writeAll_ofSource (settleFailure_ofSource _ task _) _ _)⟩
  · unfold SourceRun.settle
    intro blame hblame
    split at hblame
    · next hresult =>
      unfold SourceRun.settleComplete at hblame
      dsimp only at hblame
      split at hblame
      · cases hblame
      split at hblame
      · cases hblame
      · next bad hbad =>
        obtain ⟨pieces, hpieces, hbad⟩ := Option.bind_eq_some_iff.mp hbad
        obtain ⟨hpieces?, htotal, stop, hlast⟩ := h.pieces_eq hsound running hpieces hmem
        rw [hstop] at hlast
        have hreached := (hon.script.complete hresult).1 stop hlast
        have haccounted := htraced.accounted (by rw [hlast, hreached])
        have hend : task.chunk.stop.getD run.total ≤ task.written := by
          rw [hlast, Option.getD_some, ← hreached, done]
          exact Nat.le_refl _
        have hfound := sent_of_firstBadPiece htraced.sent haccounted htotal hpieces? hbad hend
        split at hblame
        · obtain rfl := Option.some.inj hblame
          have hlength : run.pieces = some pieces := hpieces
          simpa [SourceRun.pieceEnd, SourceRun.joined, hlength] using hfound
        · cases hblame
    · cases hblame
    · cases hblame
    · cases hblame
    · cases hblame

/-- A fetch that stops where it is has come to its chunk's end only if it was going to. -/
theorem Traced.stopped {task : Fetch} (htraced : task.Traced transfer) (hon : task.On row confirmed)
    (result : Except HttpDownloadError DownloadOutcome) :
    Fetch.Traced { task with effects := [], result } transfer where
  sent := htraced.sent
  accounted := fun hstop => htraced.accounted
    (hon.script.stop_reached hstop (Nat.le_refl _))

theorem tasks_set {run : SourceRun} {task' : Fetch}
    (h : ∀ task ∈ run.tasks, task.Traced transfer) (htask : task'.Traced transfer) (index : Nat) :
    ∀ task ∈ run.tasks.set index task', task.Traced transfer := by
  intro other hmem
  rcases List.mem_or_eq_of_mem_set hmem with hmem | rfl
  · exact h other hmem
  · exact htask

/-- What a row records is not written again. -/
theorem writeAt_recorded {file : Nat → UInt8} {ledger : SourceLedger} (hlaid : ledger.Laid)
    {row other : ChunkRow} (hrow : row ∈ ledger.rows) (hother : other ∈ ledger.rows)
    (hle : row.spec.committed ≤ position)
    (hstop : ∀ stop, row.spec.stop = some stop → position + bytes.length ≤ stop)
    (hlo : other.spec.start ≤ offset) (hhi : offset < other.spec.committed) :
    writeAt file position bytes offset = file offset := by
  refine if_neg ?_
  rintro ⟨hfrom, hto⟩
  have hstart := (hlaid.wellFormed row hrow).start_le
  by_cases heq : row = other
  · subst heq
    omega
  · rcases hlaid.apart hrow hother heq with ⟨stop, hlast, hbefore⟩ | ⟨stop, hlast, hbefore⟩
    · have := hstop stop hlast
      omega
    · have := (hlaid.wellFormed other hother).committed_le stop hlast
      omega

theorem Traced.advance (h : transfer.Traced) (hsound : transfer.Sound) {run : SourceRun}
    (running : transfer.run = some run) (task_eq : run.tasks[index]? = some task)
    (advanced : transfer.advance run index task = some next) : next.Traced := by
  have hrun := hsound.run run running
  have htask := List.mem_of_getElem? task_eq
  obtain ⟨row, hrow, hon⟩ := hrun.fetching task htask
  have hmem := (SourceLedger.mem_rows hrow).1
  have htraced := h.tasks run running task htask
  have hscript := hon.script
  unfold SourceTransfer.advance at advanced
  split at advanced
  · cases advanced
  · next position bytes effects heffects =>
    obtain rfl := Option.some.inj advanced
    rw [heffects] at hscript
    obtain ⟨rfl, -, hfits, -⟩ := hscript.write_tail
    have hcont : transfer.Continues { transfer with
        file := writeAt transfer.file task.written bytes
        deliveries := transfer.deliveries ++ [⟨task.position, task.written, bytes.length⟩]
        run := some { run with tasks := run.tasks.set index { task with
          written := task.written + bytes.length, effects } } } :=
      .updated ((SourceLedger.SameRows.refl _).updated 0) rfl rfl
        fun _ hmem => List.mem_append_left _ hmem
    have hfile (other : ChunkRow) (hother : other ∈ transfer.ledger.rows) (offset : Nat)
        (hlo : other.spec.start ≤ offset) (hhi : offset < other.spec.committed) :
        writeAt transfer.file task.written bytes offset = transfer.file offset := by
      refine writeAt_recorded hsound.laid hmem hother hon.recorded_le (fun stop hstop => ?_) hlo hhi
      rw [hon.same] at hstop
      exact hfits stop hstop
    have hfetched (other : Fetch) (hother : other ∈ run.tasks) (offset : Nat)
        (hlo : other.chunk.start ≤ offset) (hhi : offset < other.startedAt) :
        writeAt transfer.file task.written bytes offset = transfer.file offset := by
      obtain ⟨row', hrow', hon'⟩ := hrun.fetching other hother
      refine hfile row' (SourceLedger.mem_rows hrow').1 offset ?_ ?_
      · rw [hon'.same]
        exact hlo
      · exact Nat.lt_of_lt_of_le hhi (Nat.le_trans (Nat.le_of_eq hon'.startedAt) hon'.le_recorded)
    refine ⟨fun other hother position hposition hverified hcomplete => ?_, ?_, ?_, ?_⟩
    · exact hcont.answers (h.rows other hother position hposition hverified hcomplete)
        (hfile other hother)
    · rintro _ ⟨⟩ other hother
      rcases List.mem_or_eq_of_mem_set hother with hother | rfl
      · exact hcont.task (h.tasks run running other hother) (hfetched other hother)
      · refine ⟨fun offset hlo hhi => ?_, fun hstop => ?_⟩
        · by_cases hold : offset < task.written
          · exact hcont.sent (htraced.sent offset hlo hold)
          · exact ⟨_, List.mem_append_right _ (List.mem_singleton_self _), rfl,
              Nat.le_of_not_lt hold, hhi⟩
        · refine hcont.accounted (htraced.accounted ?_) (hfetched task htask)
          rw [heffects]
          exact hstop
    · rintro _ ⟨⟩
      rw [hcont.pieces?]
      exact h.pieces run running
    · intro blame hblame
      obtain ⟨offset, hlo, hhi, hsent⟩ := h.blames blame hblame
      exact ⟨offset, hlo, hhi, hcont.sent hsent⟩
  · next index' block effects heffects =>
    obtain rfl := Option.some.inj advanced
    have hnext : Fetch.Traced { task with effects } transfer :=
      ⟨htraced.sent, fun hstop => htraced.accounted (by rw [heffects]; exact hstop)⟩
    refine h.change hsound.laid (h.same (.refl _)) ?_ ?_ h.blames
    · exact tasks_set (h.tasks run running) hnext index
    · exact h.pieces run running
  · next key offset effects heffects =>
    split at advanced
    · obtain rfl := Option.some.inj advanced
      refine h.change hsound.laid (h.same (.refl _)) ?_ ?_ h.blames
      · exact tasks_set (h.tasks run running) (Traced.stopped htraced hon _) index
      · exact h.pieces run running
    · next chunks hchunks =>
      obtain rfl := Option.some.inj advanced
      rw [heffects] at hscript
      obtain ⟨rfl, rfl, htail⟩ := hscript.commit_tail
      obtain ⟨row', fits, hrow', -, hupdated⟩ := SourceLedger.checkpointed hchunks
      have hnext : Fetch.Traced { task with effects } transfer :=
        ⟨htraced.sent, fun hstop => htraced.accounted (by rw [heffects]; exact hstop)⟩
      have hrows : transfer.RowsTraced { transfer.ledger with chunks } task.chunk.id
          (·.setCommitted task.written fits) := by
        refine ⟨hupdated, fun row' hrow' position hposition _ hcomplete => ?_⟩
        obtain rfl := Option.some.inj (hrow.symm.trans hrow')
        obtain rfl := Option.some.inj (hon.named.symm.trans hposition)
        have hstarted := Nat.le_trans (Nat.le_of_eq hon.startedAt)
          (Nat.le_trans hon.le_recorded hon.recorded_le)
        have hspec : (row.setCommitted task.written fits).spec =
            { task.chunk with committed := task.written } :=
          congrArg (fun spec => { spec with committed := task.written }) hon.same
        rw [hspec] at hcomplete ⊢
        refine ⟨task.startedAt, hstarted, htraced.sent, htraced.accounted ?_⟩
        obtain ⟨stop, hstop⟩ : ∃ stop, task.chunk.stop = some stop := by
          cases hstop : task.chunk.stop with
          | none => simp [ChunkSpec.isComplete, hstop] at hcomplete
          | some stop => exact ⟨stop, rfl⟩
        have hle : stop ≤ task.written := by
          simpa [ChunkSpec.isComplete, hstop] using hcomplete
        exact hon.script.stop_reached hstop hle
      refine h.change hsound.laid hrows ?_ ?_ h.blames
      · exact tasks_set (h.tasks run running) hnext index
      · exact h.pieces run running

theorem Traced.start (h : transfer.Traced) (hsound : transfer.Sound) {ledger : SourceLedger}
    {attempt : Attempt}
    (planned : transfer.ledger.planTransfer transfer.pieceHashes attempt = some (chunks, ledger)) :
    Traced { transfer with
      ledger, run := some (attempt.run transfer.pieceHashes chunks ledger) } := by
  have hplan := SourceLedger.planTransfer_some hsound.laid planned
  refine ⟨fun row hmem position hposition hverified hcomplete => ?_, ?_, ?_, h.blames⟩
  · rcases hplan.origin with rfl | hfresh
    · exact h.rows row hmem position hposition hverified hcomplete
    · rw [(hfresh row hmem).unnamed] at hposition
      cases hposition
  · rintro _ ⟨⟩ task hmem
    cases hmem
  · rintro _ ⟨⟩
    change transfer.pieceHashes.filter _ = transfer.pieceHashes.filter _
    congr 1
    funext pieces
    exact hplan.chunks.all_eq

theorem traced_step (hsound : transfer.Sound) (h : transfer.Traced)
    (hallowed : transfer.Answerable event) (hstep : transfer.step event = some next) :
    next.Traced := by
  cases stepped hstep with
  | start _ _ planned => exact h.start hsound planned
  | stop =>
    refine ⟨h.rows, fun _ hrun => ?_, fun _ hrun => ?_, h.blames⟩
    · cases hrun
    · cases hrun
  | @queued run _ running => exact h.keep hsound running ((SourceRun.Keeps.refl run).with ..)
  | @queue _ fault _ _ running phase => exact h.queue hsound running phase fault.unreadable fault.write
  | @dispatched run _ _ _ running => exact h.keep hsound running ((SourceRun.Keeps.refl run).with ..)
  | dispatch running phase pending => exact h.dispatch hsound running phase pending hallowed
  | @join _ _ fault _ running _ task_eq done =>
    exact h.join hsound running task_eq done fault.unreadable fault.write
  | @finish run synced running => exact h.keep hsound running (run.finish_keeps synced)
  | advance running task_eq advanced => exact h.advance hsound running task_eq advanced
  | @interrupt run index task failure running task_eq =>
    have htask := List.mem_of_getElem? task_eq
    obtain ⟨row, -, hon⟩ := (hsound.run run running).fetching task htask
    refine h.change hsound.laid (h.same (.refl _)) ?_ ?_ h.blames
    · exact tasks_set (h.tasks run running)
        (Traced.stopped (h.tasks run running task htask) hon _) index
    · exact h.pieces run running

/-- Whoever is held to account for a piece has sent a byte of it, in every state of every download
whose sources answer for what they take over. -/
theorem blamed_has_sent {blame : Blame} (h : sourceMachine.Reaches Answerable transfer)
    (hblame : blame ∈ transfer.blames) :
    ∃ offset, blame.start ≤ offset ∧ offset < blame.stop ∧
      transfer.Sent blame.position offset := by
  obtain ⟨-, htraced⟩ : transfer.Sound ∧ transfer.Traced := by
    refine h.invariant (fun state => state.Sound ∧ state.Traced)
      (fun state hinitial => ⟨Untouched.sound hinitial, ?_⟩)
      fun _ _ _ hinv hallowed hstep =>
        ⟨sound_step hinv.1 hstep, traced_step hinv.1 hinv.2 hallowed hstep⟩
    refine ⟨fun row hmem position hposition => ?_, fun run hrun => ?_, fun run hrun => ?_,
      fun blame hmem => ?_⟩
    · rw [(Untouched.unmarked hinitial row hmem).2] at hposition
      cases hposition
    · rw [Untouched.idle hinitial] at hrun
      cases hrun
    · rw [Untouched.idle hinitial] at hrun
      cases hrun
    · rw [Untouched.blames hinitial] at hmem
      cases hmem
  exact htraced.blames blame hblame

/-! ## A chunk taken over -/

/-- Four bytes in two pieces and one chunk, from two mirrors. -/
def twoPieces : SourceTransfer where
  file := fun _ => 0
  ledger := {
    download := 1
    chunks := { chunks := [] }
    totalBytes := none
    sources := [{ position := 0 }, { position := 1 }] }
  pieceHashes := some {
    digest := fun bytes => if bytes = [7, 7] then "good".toList else "bad".toList
    length := 2, hashes := ["good".toList, "good".toList] }

/-- The first mirror sends two bytes, badly, and breaks off; the second one goes on, well. -/
def takenOver : List SourceEvent := [
  .start { total := 4, endpoints := [{ position := 0 }, { position := 1 }], parallel := 2 },
  .queue {}, .queue {},
  .dispatch {
    response := { status := 206, contentRange := "bytes 0-3/4".toList }
    events := [.buffer [1, 1] true, .failed (.coded (.transient none) "download.failed" "reset")] }
    none,
  .dispatch {} none, .advance 0, .advance 0, .join 0 {},
  .dispatch {
    response := { status := 206, contentRange := "bytes 2-3/4".toList }
    events := [.buffer [7, 7] false] } none,
  .dispatch {} none, .advance 0, .advance 0, .join 0 {}]

theorem twoPieces_untouched : sourceMachine.initial twoPieces :=
  SourceTransfer.Untouched.of_empty rfl rfl rfl rfl

/-- One mirror sends the whole chunk, its first piece badly. -/
def sentBadly : List SourceEvent := [
  .start { total := 4, endpoints := [{ position := 0 }], parallel := 1 },
  .queue {}, .queue {},
  .dispatch {
    response := { status := 206, contentRange := "bytes 0-3/4".toList }
    events := [.buffer [1, 1, 7, 7] false] } none,
  .dispatch {} none, .advance 0, .advance 0, .join 0 {}]

theorem sentBadly_answerable : sourceMachine.Within Answerable twoPieces sentBadly := by
  refine .cons trivial rfl (.cons trivial rfl (.cons trivial rfl (.cons ?_ rfl (.cons ?_ rfl
    (.cons trivial rfl (.cons trivial rfl (.cons trivial rfl trivial)))))))
  · rintro _ _ _ _ _ _ ⟨⟩ - ⟨⟩ - - _ _ ⟨⟩ hbad
    cases hbad
  · rintro _ _ _ _ _ _ ⟨⟩ - hpending
    cases hpending

theorem blamed_has_sent_twoPieces : ∃ last, sourceMachine.run twoPieces sentBadly = some last ∧
    last.blames = [⟨0, 0, 2⟩] ∧ ∃ offset, 0 ≤ offset ∧ offset < 2 ∧ last.Sent 0 offset :=
  ⟨_, rfl, rfl, @blamed_has_sent _ ⟨0, 0, 2⟩
    ((Machine.Reaches.initial twoPieces_untouched).within sentBadly_answerable rfl)
    (List.mem_singleton_self _)⟩

theorem takenOver_blames :
    ((sourceMachine.run twoPieces takenOver).map fun last =>
      (last.blames, last.deliveries)) =
      some ([⟨1, 0, 2⟩], [⟨0, 0, 2⟩, ⟨1, 2, 2⟩]) := by
  rfl

/-- The second mirror is isolated for the piece the first one sent. -/
theorem blamed_has_not_sent :
    ¬ ∀ transfer, sourceMachine.Reaches Machine.anything transfer → ∀ blame ∈ transfer.blames,
      ∃ offset, blame.start ≤ offset ∧ offset < blame.stop ∧
        transfer.Sent blame.position offset := by
  intro h
  obtain ⟨last, hlast, heq⟩ := Option.map_eq_some_iff.mp takenOver_blames
  obtain ⟨hblames, hdeliveries⟩ := Prod.mk.inj heq
  obtain ⟨offset, -, hlt, delivery, hmem, hposition, hle, -⟩ :=
    h last ((Machine.Reaches.initial twoPieces_untouched).run hlast) ⟨1, 0, 2⟩
      (hblames ▸ List.mem_singleton_self _)
  rw [hdeliveries] at hmem
  rcases List.mem_cons.mp hmem with rfl | hmem
  · cases hposition
  · obtain rfl := List.mem_singleton.mp hmem
    exact absurd (Nat.lt_of_le_of_lt hle hlt) (by decide)

end SourceTransfer

end RDownloader
