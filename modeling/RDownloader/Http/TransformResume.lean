import RDownloader.Http.Transform
import RDownloader.Http.Plan

/-!
# What a continuation may keep (`rd-http/src/transform_resume.rs`)

`planResume` keeps, for each connection, the contiguous run of recorded chunk MACs from its start
and moves its committed offset to the end of that run. A layout that does not start its connections
on boundaries is given up for a single connection.
-/

namespace RDownloader

open Cuts

/-- What a continuation runs. -/
structure ResumePlan where
  chunks : List ChunkSpec
  macs : Std.TreeMap Nat Block
  collapsed : Bool
  restarted : Bool

/-- The loop over one connection: the run of recorded MACs from `index` on. There are at most
`chunkCount` of them, which is the fuel. -/
def keepRun (integrity : IntegritySpec) (adopted : Std.TreeMap Nat Block) (committed : Nat) :
    Nat → Nat → Nat → Std.TreeMap Nat Block → Nat × Std.TreeMap Nat Block
  | 0, _, reached, kept => (reached, kept)
  | fuel + 1, index, reached, kept =>
    match adopted[index]?, integrity.chunkRange index with
    | some mac, some (_, stop) =>
      if stop ≤ integrity.alignedFloor committed then
        keepRun integrity adopted committed fuel (index + 1) stop (kept.insert index mac)
      else (reached, kept)
    | _, _ => (reached, kept)

/-- One connection rewound to the end of its run. -/
def rewind (integrity : IntegritySpec) (adopted : Std.TreeMap Nat Block) (chunk : ChunkSpec)
    (kept : Std.TreeMap Nat Block) : ChunkSpec × Std.TreeMap Nat Block :=
  let (reached, kept) :=
    match integrity.chunkOf chunk.start with
    | some first => keepRun integrity adopted chunk.committed integrity.chunkCount first
        chunk.start kept
    | none => (chunk.start, kept)
  ({ chunk with committed := max reached chunk.start }, kept)

def rewindAll (integrity : IntegritySpec) (adopted : Std.TreeMap Nat Block) :
    List ChunkSpec → Std.TreeMap Nat Block → List ChunkSpec × Std.TreeMap Nat Block
  | [], kept => ([], kept)
  | chunk :: chunks, kept =>
    let (chunk, kept) := rewind integrity adopted chunk kept
    let (chunks, kept) := rewindAll integrity adopted chunks kept
    (chunk :: chunks, kept)

/-- `plan_resume`. `freshId` is the identifier a connection gets when no chunk is stored. -/
def planResume (transform : StreamTransform) (freshId : ChunkId) (chunks : List ChunkSpec)
    (checkpoint : TransformCheckpoint) (total : Option Nat) : ResumePlan :=
  let restarted := !chunks.isEmpty && checkpoint.fingerprint.isSome &&
    checkpoint.fingerprint != some transform.fingerprint
  let adopted := transform.adopt checkpoint
  match transform.integrity with
  | none => { chunks, macs := ∅, collapsed := false, restarted }
  | some integrity =>
    if !chunks.all fun chunk => integrity.isBoundary chunk.start then
      let first := chunks.head?.getD { id := freshId, start := 0, stop := total, committed := 0 }
      let single := { first with
        start := 0, stop := total.or integrity.boundaries.getLast?, committed := 0 }
      { chunks := [single], macs := ∅, collapsed := true, restarted }
    else
      let (chunks, kept) := rewindAll integrity adopted chunks ∅
      { chunks, macs := kept, collapsed := false, restarted }

/-! ## Maps of MACs -/

theorem insertAll_append (macs : Std.TreeMap Nat Block) (xs ys : List (Nat × Block)) :
    insertAll macs (xs ++ ys) = insertAll (insertAll macs xs) ys :=
  List.foldl_append ..

/-! ## One connection -/

/-- The recorded MACs with indices from `first` up to `last`. -/
def recordedMacs (adopted : Std.TreeMap Nat Block) (first last : Nat) : List (Nat × Block) :=
  (List.range' first (last - first)).filterMap fun index => adopted[index]?.map (index, ·)

namespace IntegritySpec

variable {integrity : IntegritySpec} {adopted : Std.TreeMap Nat Block}

/-- The run goes from the start of one provider chunk to the start of the first later one that was
not recorded, or not committed. -/
theorem keepRun_spec (hwf : integrity.WellFormed) (adopted : Std.TreeMap Nat Block)
    (committed fuel : Nat)
    (hindex : index ≤ integrity.chunkCount) (hfuel : integrity.chunkCount ≤ index + fuel)
    (kept : Std.TreeMap Nat Block) :
    ∃ next, index ≤ next ∧ next ≤ max index (integrity.passed committed) ∧
      (∀ i, index ≤ i → i < next → i ∈ adopted) ∧
      (next < integrity.passed committed → next ∉ adopted) ∧
      keepRun integrity adopted committed fuel index (start integrity.boundaries index) kept =
        (start integrity.boundaries next, insertAll kept (recordedMacs adopted index next)) := by
  induction fuel generalizing index kept with
  | zero =>
    have hall := integrity.passed_le_chunkCount committed
    exact ⟨index, Nat.le_refl _, Nat.le_max_left .., fun i hlo hhi => by omega,
      fun hlt => by omega, by simp [keepRun, insertAll, recordedMacs]⟩
  | succ fuel ih =>
    have hstay (hend : index < integrity.passed committed → index ∉ adopted) :
        ∃ next, index ≤ next ∧ next ≤ max index (integrity.passed committed) ∧
        (∀ i, index ≤ i → i < next → i ∈ adopted) ∧
        (next < integrity.passed committed → next ∉ adopted) ∧
        (start integrity.boundaries index, kept) =
          (start integrity.boundaries next, insertAll kept (recordedMacs adopted index next)) :=
      ⟨index, Nat.le_refl _, Nat.le_max_left .., fun i hlo hhi => by omega, hend,
        by simp [insertAll, recordedMacs]⟩
    rw [keepRun]
    cases hmac : adopted[index]? with
    | none => exact hstay fun _ => by simp [Std.TreeMap.mem_iff_isSome_getElem?, hmac]
    | some mac =>
      have hmem : index ∈ adopted := by simp [Std.TreeMap.mem_iff_isSome_getElem?, hmac]
      rcases Nat.lt_or_ge index integrity.chunkCount with hlt | hge
      · rw [IntegritySpec.chunkRange_of_lt hlt]
        dsimp only
        have hfloor : integrity.boundaries[index] ≤ integrity.alignedFloor committed ↔
            index < integrity.passed committed :=
          (hwf.le_alignedFloor_iff (List.getElem_mem hlt)).trans
            (lt_passed_iff hwf.ascending hlt).symm
        split
        · next hle =>
          have hpassed := hfloor.mp hle
          obtain ⟨next, hnext, hmax, hrun, hend, heq⟩ :=
            ih hlt (by omega) (kept.insert index mac)
          refine ⟨next, by omega, by omega, fun i hlo hhi => ?_, hend, ?_⟩
          · rcases Nat.eq_or_lt_of_le hlo with rfl | hlo
            · exact hmem
            · exact hrun i hlo hhi
          · have hrange : next - index = (next - (index + 1)) + 1 := by omega
            rw [← start_succ hlt, heq, recordedMacs, recordedMacs, hrange, List.range'_succ,
              List.filterMap_cons_some (by rw [hmac]; rfl)]
            rfl
        · next hle => exact hstay fun hlt => absurd (hfloor.mpr hlt) hle
      · rw [IntegritySpec.chunkRange_of_le hge]
        have hall := integrity.passed_le_chunkCount committed
        exact hstay fun _ => by omega

/-- Nothing of a connection has to be fetched again: it was stopped on a boundary, and every
provider chunk up to there was recorded. -/
structure Kept (integrity : IntegritySpec) (adopted : Std.TreeMap Nat Block)
    (chunk : ChunkSpec) : Prop where
  boundary : integrity.isBoundary chunk.committed
  recorded : ∀ index, integrity.passed chunk.start ≤ index →
    index < integrity.passed chunk.committed → index ∈ adopted

/-- A connection as the plan runs it: rewound to a boundary within what was committed, behind a
contiguous run of recorded MACs. -/
structure RewoundTo (integrity : IntegritySpec) (adopted : Std.TreeMap Nat Block)
    (chunk rewound : ChunkSpec) : Prop where
  eq : rewound = { chunk with committed := rewound.committed }
  start_le : chunk.start ≤ rewound.committed
  le_committed : rewound.committed ≤ chunk.committed
  boundary : integrity.isBoundary rewound.committed
  recorded : ∀ index, integrity.passed chunk.start ≤ index →
    index < integrity.passed rewound.committed → index ∈ adopted
  unmoved : integrity.Kept adopted chunk → rewound.committed = chunk.committed

theorem RewoundTo.unmoved_iff (h : integrity.RewoundTo adopted chunk rewound) :
    rewound.committed = chunk.committed ↔ integrity.Kept adopted chunk :=
  ⟨fun heq => ⟨heq ▸ h.boundary, heq ▸ h.recorded⟩, h.unmoved⟩

theorem RewoundTo.wellFormed (h : integrity.RewoundTo adopted chunk rewound)
    (hchunk : chunk.WellFormed) : rewound.WellFormed := by
  rw [h.eq]
  exact ⟨h.start_le, fun stop hstop => Nat.le_trans h.le_committed (hchunk.committed_le stop hstop)⟩

/-- A connection that starts on a boundary is rewound and keeps the MACs of its run. -/
theorem rewind_spec (hwf : integrity.WellFormed) {chunk : ChunkSpec}
    (hchunk : chunk.WellFormed) (hb : integrity.isBoundary chunk.start)
    (adopted kept : Std.TreeMap Nat Block) :
    ∃ rewound, integrity.RewoundTo adopted chunk rewound ∧
      rewind integrity adopted chunk kept =
        (rewound, insertAll kept (recordedMacs adopted (integrity.passed rewound.start)
          (integrity.passed rewound.committed))) := by
  have hstart := hwf.isBoundary_iff.mp hb
  rcases Nat.lt_or_ge (integrity.passed chunk.start) integrity.chunkCount with hlt | hge
  · obtain ⟨next, hnext, hmax, hrun, hend, heq⟩ := keepRun_spec hwf adopted
      chunk.committed integrity.chunkCount (Nat.le_of_lt hlt) (Nat.le_add_left ..) kept
    have hmono : integrity.passed chunk.start ≤ integrity.passed chunk.committed :=
      passed_mono hchunk.start_le
    have hnext' : next ≤ integrity.passed chunk.committed :=
      Nat.le_trans hmax (Nat.max_le.mpr ⟨hmono, Nat.le_refl _⟩)
    have hpassed : integrity.passed (start integrity.boundaries next) = next :=
      passed_start hwf.ascending hwf.positive
        (Nat.le_trans hnext' (integrity.passed_le_chunkCount _))
    have hlo : chunk.start ≤ start integrity.boundaries next := by
      rw [← hstart]
      exact start_le hwf.ascending (Nat.le_trans hnext (Nat.le_of_eq hpassed.symm))
    refine ⟨{ chunk with committed := start integrity.boundaries next },
      ⟨rfl, hlo, start_le hwf.ascending hnext', ?_, ?_, fun hkept => ?_⟩, ?_⟩
    · rw [hwf.isBoundary_iff, hpassed]
    · rw [hpassed]
      exact hrun
    · have hlast : next = integrity.passed chunk.committed := by
        refine Nat.le_antisymm hnext' (Nat.le_of_not_lt fun hlt => ?_)
        exact hend hlt (hkept.recorded next hnext hlt)
      rw [hlast]
      exact hwf.isBoundary_iff.mp hkept.boundary
    · rw [hstart] at heq
      rw [rewind, hwf.chunkOf_of_lt hlt]
      simp only [heq, hpassed, Nat.max_eq_left hlo]
  · refine ⟨{ chunk with committed := chunk.start }, ⟨rfl, Nat.le_refl _, hchunk.start_le, hb,
      fun i hlo hhi => absurd hhi (Nat.not_lt.mpr hlo), fun hkept => ?_⟩, ?_⟩
    · -- past the last boundary there is one boundary offset
      have hsame : integrity.passed chunk.committed = integrity.passed chunk.start := by
        have hmono : integrity.passed chunk.start ≤ integrity.passed chunk.committed :=
          passed_mono hchunk.start_le
        have hall := integrity.passed_le_chunkCount chunk.committed
        omega
      have hcommitted := hwf.isBoundary_iff.mp hkept.boundary
      rw [hsame, hstart] at hcommitted
      exact hcommitted
    · rw [rewind, hwf.chunkOf_of_le hge]
      simp [insertAll, recordedMacs]

end IntegritySpec

/-! ## The whole layout -/

namespace IntegritySpec

variable {integrity : IntegritySpec} {adopted : Std.TreeMap Nat Block}

theorem exists_rewound {chunks rewound : List ChunkSpec}
    (h : List.Forall₂ (integrity.RewoundTo adopted) chunks rewound) (hmem : chunk ∈ rewound) :
    ∃ stored ∈ chunks, integrity.RewoundTo adopted stored chunk := by
  induction h with
  | nil => cases hmem
  | cons hhead _ ih =>
    rcases List.mem_cons.mp hmem with rfl | hmem
    · exact ⟨_, List.mem_cons_self .., hhead⟩
    · obtain ⟨stored, hstored, hrewound⟩ := ih hmem
      exact ⟨stored, List.mem_cons_of_mem _ hstored, hrewound⟩

theorem exists_rewound_of {chunks rewound : List ChunkSpec}
    (h : List.Forall₂ (integrity.RewoundTo adopted) chunks rewound) (hmem : stored ∈ chunks) :
    ∃ chunk ∈ rewound, integrity.RewoundTo adopted stored chunk := by
  induction h with
  | nil => cases hmem
  | cons hhead _ ih =>
    rcases List.mem_cons.mp hmem with rfl | hmem
    · exact ⟨_, List.mem_cons_self .., hhead⟩
    · obtain ⟨chunk, hchunk, hrewound⟩ := ih hmem
      exact ⟨chunk, List.mem_cons_of_mem _ hchunk, hrewound⟩

theorem flatMap_rewound {chunks rewound : List ChunkSpec} {f : ChunkSpec → List α}
    (h : List.Forall₂ (integrity.RewoundTo adopted) chunks rewound)
    (hf : ∀ chunk committed, f { chunk with committed } = f chunk) :
    rewound.flatMap f = chunks.flatMap f := by
  induction h with
  | nil => rfl
  | cons hhead _ ih => rw [List.flatMap_cons, List.flatMap_cons, ih, hhead.eq, hf]

theorem rewindAll_spec (hwf : integrity.WellFormed) {chunks : List ChunkSpec}
    (hchunks : ∀ chunk ∈ chunks, chunk.WellFormed)
    (haligned : ∀ chunk ∈ chunks, integrity.isBoundary chunk.start)
    (adopted kept : Std.TreeMap Nat Block) :
    ∃ rewound, List.Forall₂ (integrity.RewoundTo adopted) chunks rewound ∧
      rewindAll integrity adopted chunks kept =
        (rewound, insertAll kept (rewound.flatMap fun chunk =>
          recordedMacs adopted (integrity.passed chunk.start)
            (integrity.passed chunk.committed))) := by
  induction chunks generalizing kept with
  | nil => exact ⟨[], .nil, rfl⟩
  | cons chunk chunks ih =>
    obtain ⟨first, hfirst, hrewind⟩ := rewind_spec hwf
      (hchunks chunk (List.mem_cons_self ..)) (haligned chunk (List.mem_cons_self ..)) adopted kept
    obtain ⟨rewound, hall, hrest⟩ := ih (fun c hc => hchunks c (List.mem_cons_of_mem _ hc))
      (fun c hc => haligned c (List.mem_cons_of_mem _ hc))
      (insertAll kept (recordedMacs adopted (integrity.passed first.start)
        (integrity.passed first.committed)))
    refine ⟨first :: rewound, .cons hfirst hall, ?_⟩
    simp only [rewindAll, hrewind, hrest, List.flatMap_cons, insertAll_append]

end IntegritySpec

namespace StreamTransform

variable {transform : StreamTransform} {integrity : IntegritySpec}

theorem wellFormed (hint : transform.integrity = some integrity) : integrity.WellFormed :=
  ContentTransform.wellFormed_of_validate transform.valid hint

/-- A layout whose connections all start on boundaries is rewound. -/
theorem planResume_aligned (hint : transform.integrity = some integrity)
    (hchunks : ∀ chunk ∈ chunks, chunk.WellFormed)
    (haligned : ∀ chunk ∈ chunks, integrity.isBoundary chunk.start)
    (freshId : ChunkId) (checkpoint : TransformCheckpoint) (total : Option Nat) :
    let plan := planResume transform freshId chunks checkpoint total
    List.Forall₂ (integrity.RewoundTo (transform.adopt checkpoint)) chunks plan.chunks ∧
      plan.macs = insertAll ∅ (plan.chunks.flatMap fun chunk =>
        recordedMacs (transform.adopt checkpoint) (integrity.passed chunk.start)
          (integrity.passed chunk.committed)) := by
  obtain ⟨rewound, hall, hrewound⟩ := IntegritySpec.rewindAll_spec (wellFormed hint) hchunks
    haligned (transform.adopt checkpoint) ∅
  have haligned' : chunks.all (fun chunk => integrity.isBoundary chunk.start) := by
    simpa using haligned
  simp only [planResume, hint, haligned', Bool.not_true, Bool.false_eq_true, if_false, hrewound]
  exact ⟨hall, trivial⟩

/-- Any other layout is given up for one connection over the whole file. -/
theorem planResume_unaligned (hint : transform.integrity = some integrity)
    {first : ChunkSpec} {rest : List ChunkSpec}
    (hunaligned : ∃ chunk ∈ first :: rest, ¬ integrity.isBoundary chunk.start)
    (freshId : ChunkId) (checkpoint : TransformCheckpoint) (total : Option Nat) :
    let plan := planResume transform freshId (first :: rest) checkpoint total
    plan.chunks = [{
        id := first.id, start := 0, stop := total.or integrity.boundaries.getLast?
        committed := 0 }] ∧ plan.macs = ∅ := by
  have haligned : (first :: rest).all (fun chunk => integrity.isBoundary chunk.start) = false := by
    obtain ⟨chunk, hmem, hnot⟩ := hunaligned
    exact List.all_eq_false.mpr ⟨chunk, hmem, hnot⟩
  simp only [planResume, hint, haligned, Bool.not_false, if_true]
  exact ⟨rfl, trivial⟩

theorem planResume_cases (hint : transform.integrity = some integrity)
    (hchunks : ∀ chunk ∈ chunks, chunk.WellFormed)
    (freshId : ChunkId) (checkpoint : TransformCheckpoint) (total : Option Nat) :
    let plan := planResume transform freshId chunks checkpoint total
    (∃ id, plan.chunks = [{
        id, start := 0, stop := total.or integrity.boundaries.getLast?, committed := 0 }] ∧
      plan.macs = ∅) ∨
    (List.Forall₂ (integrity.RewoundTo (transform.adopt checkpoint)) chunks plan.chunks ∧
      plan.macs = insertAll ∅ (plan.chunks.flatMap fun chunk =>
        recordedMacs (transform.adopt checkpoint) (integrity.passed chunk.start)
          (integrity.passed chunk.committed))) := by
  by_cases haligned : ∀ chunk ∈ chunks, integrity.isBoundary chunk.start
  · exact .inr (planResume_aligned hint hchunks haligned freshId checkpoint total)
  · have hunaligned : ∃ chunk ∈ chunks, ¬ integrity.isBoundary chunk.start := by
      simpa using haligned
    cases chunks with
    | nil => simp at hunaligned
    | cons first rest =>
      exact .inl ⟨first.id, planResume_unaligned hint hunaligned freshId checkpoint total⟩

end StreamTransform

/-! ## Another description -/

/-- What was left behind belongs to another description. -/
def TransformCheckpoint.Differs (checkpoint : TransformCheckpoint) (transform : StreamTransform) :
    Prop :=
  ∃ fingerprint, checkpoint.fingerprint = some fingerprint ∧ fingerprint ≠ transform.fingerprint

/-- No MAC is carried over, and every connection restarts at its start. -/
structure ResumePlan.KeepsNothing (plan : ResumePlan) : Prop where
  macs : plan.macs = ∅
  restarts : ∀ chunk ∈ plan.chunks, chunk.committed = chunk.start

theorem StreamTransform.adopt_of_differs {transform : StreamTransform}
    {checkpoint : TransformCheckpoint} (h : checkpoint.Differs transform) :
    transform.adopt checkpoint = ∅ := by
  obtain ⟨fingerprint, hfingerprint, hne⟩ := h
  rw [adopt, if_pos]
  rw [hfingerprint]
  exact fun heq => hne (Option.some.inj heq)

/-- Without recorded MACs a connection is rewound to its start. -/
theorem rewind_empty (integrity : IntegritySpec) (chunk : ChunkSpec)
    (kept : Std.TreeMap Nat Block) :
    rewind integrity ∅ chunk kept = ({ chunk with committed := chunk.start }, kept) := by
  have hrun (fuel first : Nat) : keepRun integrity ∅ chunk.committed fuel first chunk.start kept =
      (chunk.start, kept) := by
    cases fuel with
    | zero => rfl
    | succ fuel =>
      rw [keepRun, Std.TreeMap.getElem?_emptyc]
  unfold rewind
  cases integrity.chunkOf chunk.start with
  | none => simp only [Nat.max_self]
  | some first => simp only [hrun, Nat.max_self]

theorem rewindAll_empty (integrity : IntegritySpec) (chunks : List ChunkSpec)
    (kept : Std.TreeMap Nat Block) :
    rewindAll integrity ∅ chunks kept =
      (chunks.map fun chunk => { chunk with committed := chunk.start }, kept) := by
  induction chunks generalizing kept with
  | nil => rfl
  | cons chunk chunks ih =>
    rw [rewindAll, rewind_empty]
    dsimp only
    rw [ih, List.map_cons]

/-- A continuation under another description keeps nothing, whatever the stream and the layout. -/
def RestartsOnChange : Prop :=
  ∀ (transform : StreamTransform) (freshId : ChunkId) (chunks : List ChunkSpec)
    (checkpoint : TransformCheckpoint) (total : Option Nat), checkpoint.Differs transform →
      (planResume transform freshId chunks checkpoint total).KeepsNothing

/-- A stream of which nothing is published to check it against. -/
def uncheckedTransform : StreamTransform where
  description := {
    cipher := {
      algorithm := cipherAes128Ctr, keyReference := some "vault://key"
      nonce := List.replicate 8 0, firstBlock := 0 }
    integrity := none }
  fingerprint := "new"
  encrypt := id
  valid := rfl

/-- Half of the file was written under the other key. -/
def halfWritten : ChunkSpec := { id := 0, start := 0, stop := some 10, committed := 5 }

theorem unchecked_keeps_bytes : ¬RestartsOnChange := by
  intro h
  have hplan := h uncheckedTransform 1 [halfWritten] { fingerprint := some "old" } (some 10)
    ⟨"old", rfl, by decide⟩
  have hcommitted := hplan.restarts halfWritten (List.mem_singleton_self _)
  cases hcommitted

/-- A continuation under another description keeps nothing exactly when the stream has a value to
check it against, or nothing was committed. -/
theorem keeps_nothing_iff {transform : StreamTransform} {checkpoint : TransformCheckpoint}
    (h : checkpoint.Differs transform) (freshId : ChunkId) (chunks : List ChunkSpec)
    (total : Option Nat) :
    (planResume transform freshId chunks checkpoint total).KeepsNothing ↔
      transform.integrity.isSome ∨ ∀ chunk ∈ chunks, chunk.committed = chunk.start := by
  unfold planResume
  rw [StreamTransform.adopt_of_differs h]
  dsimp only
  cases hintegrity : transform.integrity with
  | none => exact ⟨fun hkeeps => .inr hkeeps.restarts, fun hstarts =>
      ⟨rfl, hstarts.resolve_left Bool.false_ne_true⟩⟩
  | some integrity =>
    refine iff_of_true ?_ (.inl rfl)
    dsimp only
    split
    · refine ⟨rfl, fun chunk hmem => ?_⟩
      rw [List.mem_singleton.mp hmem]
    · rw [rewindAll_empty]
      refine ⟨rfl, fun chunk hmem => ?_⟩
      obtain ⟨stored, -, rfl⟩ := List.mem_map.mp hmem
      rfl

theorem unchecked_starts_anew :
    (planResume uncheckedTransform 1 [{ halfWritten with committed := 0 }]
      { fingerprint := some "old" } (some 10)).KeepsNothing :=
  (keeps_nothing_iff ⟨"old", rfl, by decide⟩ 1 _ (some 10)).mpr (.inr (by decide))

end RDownloader
