import RDownloader.Http.MacWalk
import RDownloader.Http.TransformResume
import Mathlib.Data.List.Perm.Basic

/-!
# Every provider chunk is accounted for once

The MACs a plan keeps come from a scan over what earlier attempts recorded, the others from the
connections' walkers. Together they are one MAC for every provider chunk
(`StreamTransform.planResume_completes_macs`).
-/

namespace RDownloader

open Cuts

/-- The chunk MACs one connection computes while it writes `buffers` from `position` on. -/
def StreamTransform.walk (transform : StreamTransform) (position : Nat)
    (buffers : List (List UInt8)) : Except Failure (List (Nat × Block)) :=
  match transform.macWalker position with
  | none => .ok []
  | some walker => (walker.feedAll position buffers).map (·.1)

/-- MACs that earlier attempts at the same stream recorded: each attempt planned some layout and
walked some of the bytes of one connection, and any of its records may be there. -/
inductive StreamTransform.Recorded (transform : StreamTransform) (plaintext : List UInt8) :
    List (Nat × Block) → Prop
  | none : Recorded transform plaintext []
  | attempt {freshId chunks total chunk buffers finished}
    (before : Recorded transform plaintext macs)
    (layout : ∀ chunk ∈ chunks, chunk.WellFormed)
    (planned : chunk ∈ (planResume transform freshId chunks
      { fingerprint := some transform.fingerprint, macs } total).chunks)
    (delivered : buffers.flatten = slice plaintext chunk.committed reached)
    (within : chunk.committed ≤ reached ∧ reached ≤ plaintext.length)
    (walked : transform.walk chunk.committed buffers = .ok finished)
    (recorded : ∀ mac ∈ macs', mac ∈ macs ∨ mac ∈ finished) :
    Recorded transform plaintext macs'

theorem mem_of_insertAll_getElem? {macs : Std.TreeMap Nat Block}
    (h : (insertAll macs entries)[index]? = some mac) :
    macs[index]? = some mac ∨ (index, mac) ∈ entries := by
  induction entries generalizing macs with
  | nil => exact .inl h
  | cons entry entries ih =>
    rcases ih h with hget | hmem
    · rw [Std.TreeMap.getElem?_insert] at hget
      split at hget
      · next heq =>
        obtain rfl := Option.some.inj hget
        obtain rfl : entry.1 = index := by simpa using heq
        exact .inr (List.mem_cons_self ..)
      · exact .inl hget
    · exact .inr (List.mem_cons_of_mem _ hmem)

/-- Entries with fresh keys are added beside what the map held. -/
theorem insertAll_toList_perm {macs : Std.TreeMap Nat Block} {entries : List (Nat × Block)}
    (h : ((macs.toList ++ entries).map (·.1)).Nodup) :
    (insertAll macs entries).toList.Perm (macs.toList ++ entries) := by
  induction entries generalizing macs with
  | nil => rw [List.append_nil]; rfl
  | cons entry entries ih =>
    have hfresh : ∀ held ∈ macs.toList, entry.1 ≠ held.1 := by
      intro held hheld heq
      rw [List.map_append, List.nodup_append] at h
      exact h.2.2 _ (List.mem_map_of_mem hheld) _ (List.mem_map_of_mem (List.mem_cons_self ..))
        heq.symm
    have hinsert : (macs.insert entry.1 entry.2).toList.Perm (entry :: macs.toList) := by
      have := Std.TreeMap.toList_insert_perm (t := macs) (k := entry.1) (v := entry.2)
      rwa [List.filter_eq_self.mpr (by simpa using hfresh)] at this
    have hmove : ((macs.insert entry.1 entry.2).toList ++ entries).Perm
        (macs.toList ++ entry :: entries) :=
      (hinsert.append_right entries).trans List.perm_middle.symm
    exact (ih ((hmove.map _).nodup_iff.mpr h)).trans hmove

/-- Every adopted MAC is the one of its provider chunk. -/
def IntegritySpec.Sound (integrity : IntegritySpec) (encrypt : Block → Block)
    (plaintext : List UInt8) (adopted : Std.TreeMap Nat Block) : Prop :=
  ∀ index mac, adopted[index]? = some mac →
    mac = integrity.referenceMac encrypt plaintext index

/-- A run of sound MACs is the run of reference MACs. -/
theorem IntegritySpec.Sound.recordedMacs_eq {integrity : IntegritySpec}
    {adopted : Std.TreeMap Nat Block} (hsound : integrity.Sound encrypt plaintext adopted)
    (hrecorded : ∀ index, integrity.passed p ≤ index → index < integrity.passed q →
      index ∈ adopted) :
    recordedMacs adopted (integrity.passed p) (integrity.passed q) =
      integrity.macsBetween encrypt plaintext p q := by
  rw [recordedMacs, IntegritySpec.macsBetween, ← List.filterMap_eq_map']
  refine List.filterMap_congr fun index hmem => ?_
  obtain ⟨hlo, hhi⟩ := List.mem_range'_1.mp hmem
  obtain ⟨mac, hget⟩ := Option.isSome_iff_exists.mp
    (Std.TreeMap.mem_iff_isSome_getElem?.mp (hrecorded index hlo (by omega)))
  rw [hget, hsound index mac hget]
  rfl

/-! ## Every provider chunk once -/

namespace StreamTransform

variable {transform : StreamTransform} {integrity : IntegritySpec} {plaintext : List UInt8}

theorem walk_eq (hint : transform.integrity = some integrity) (hb : integrity.isBoundary p)
    (hbuffers : buffers.flatten = slice plaintext p q) (hpq : p ≤ q) (hq : q ≤ plaintext.length) :
    transform.walk p buffers = .ok (integrity.macsBetween transform.encrypt plaintext p q) := by
  obtain ⟨walker, hfeed⟩ :=
    MacWalker.feedAll_new (wellFormed hint) transform.encrypt hb hbuffers hpq hq
  simp only [walk, macWalker, hint, Option.map_some, hfeed]
  rfl

theorem adopt_sound (hint : transform.integrity = some integrity)
    (h : ∀ mac ∈ checkpoint.macs,
      mac.2 = integrity.referenceMac transform.encrypt plaintext mac.1) :
    integrity.Sound transform.encrypt plaintext (transform.adopt checkpoint) := by
  intro index mac hget
  simp only [adopt, hint] at hget
  split at hget
  · simp at hget
  · rcases mem_of_insertAll_getElem? hget with hnone | hmem
    · simp at hnone
    · exact h (index, mac) (List.mem_of_mem_filter hmem)

/-- What was recorded is, for every provider chunk, its MAC. -/
theorem Recorded.sound (hint : transform.integrity = some integrity)
    (h : transform.Recorded plaintext macs) :
    ∀ mac ∈ macs, mac.2 = integrity.referenceMac transform.encrypt plaintext mac.1 := by
  have hwf := wellFormed hint
  induction h with
  | none => intro mac hmac; cases hmac
  | @attempt macs macs' reached freshId chunks total chunk buffers finished before layout planned
      delivered within walked recorded ih =>
    have hb : integrity.isBoundary chunk.committed := by
      rcases planResume_cases hint layout freshId
        { fingerprint := some transform.fingerprint, macs } total with
        ⟨id, hsingle, -⟩ | ⟨hall, -⟩
      · rw [hsingle, List.mem_singleton] at planned
        rw [planned]
        rfl
      · obtain ⟨stored, -, hrewound⟩ := IntegritySpec.exists_rewound hall planned
        exact hrewound.boundary
    rw [walk_eq hint hb delivered within.1 within.2] at walked
    obtain rfl := Except.ok.inj walked
    intro mac hmac
    rcases recorded mac hmac with hold | hnew
    · exact ih mac hold
    · obtain ⟨index, -, rfl⟩ := List.mem_map.mp hnew
      rfl

end StreamTransform

namespace IntegritySpec

variable {integrity : IntegritySpec} {encrypt : Block → Block} {plaintext : List UInt8}

theorem macsBetween_all (hwf : integrity.WellFormed)
    (hsize : integrity.boundaries.getLast? = some total) :
    integrity.macsBetween encrypt plaintext 0 total =
      (List.range integrity.chunkCount).map fun index =>
        (index, integrity.referenceMac encrypt plaintext index) := by
  have hzero : integrity.passed 0 = 0 := passed_start hwf.ascending hwf.positive (Nat.zero_le _)
  have hlast : integrity.passed total = integrity.chunkCount := by
    rw [List.getLast?_eq_getElem?] at hsize
    obtain ⟨hlt, rfl⟩ := List.getElem?_eq_some_iff.mp hsize
    rw [← start_succ hlt, IntegritySpec.passed, passed_start hwf.ascending hwf.positive hlt,
      IntegritySpec.chunkCount]
    omega
  rw [macsBetween, hzero, hlast, Nat.sub_zero, List.range_eq_range']

theorem mem_macsBetween {entry : Nat × Block} :
    entry ∈ integrity.macsBetween encrypt plaintext p q ↔
      (integrity.passed p ≤ entry.1 ∧ entry.1 < integrity.passed q) ∧
        entry.2 = integrity.referenceMac encrypt plaintext entry.1 := by
  obtain ⟨index, mac⟩ := entry
  simp only [IntegritySpec.macsBetween, List.mem_map, List.mem_range'_1, Prod.mk.injEq]
  constructor
  · rintro ⟨i, hi, rfl, rfl⟩
    exact ⟨by omega, rfl⟩
  · rintro ⟨hi, rfl⟩
    exact ⟨index, by omega, rfl, rfl⟩

/-- Over a layout the MACs of the connections are those of the whole file. -/
theorem flatMap_macsBetween {sorted : List ChunkSpec} (h : Consecutive first total sorted) :
    sorted.flatMap (fun chunk =>
      integrity.macsBetween encrypt plaintext chunk.start (chunk.stop.getD 0)) =
        integrity.macsBetween encrypt plaintext first total := by
  induction sorted generalizing first with
  | nil =>
    obtain rfl := h
    exact (macsBetween_of_passed_eq rfl).symm
  | cons chunk sorted ih =>
    obtain ⟨rfl, hchunk, stop, hstop, hrest⟩ := h
    have hstart : chunk.start ≤ stop :=
      Nat.le_trans hchunk.start_le (hchunk.committed_le stop hstop)
    rw [List.flatMap_cons, ih hrest, hstop, Option.getD_some, macsBetween_append hstart hrest.le]

end IntegritySpec

namespace StreamTransform

variable {transform : StreamTransform} {integrity : IntegritySpec} {plaintext : List UInt8}

/-- The MACs a connection of the plan keeps, and those it has left to compute. -/
def keptMacs (transform : StreamTransform) (integrity : IntegritySpec) (plaintext : List UInt8)
    (chunk : ChunkSpec) : List (Nat × Block) :=
  integrity.macsBetween transform.encrypt plaintext chunk.start chunk.committed

def remainingMacs (transform : StreamTransform) (integrity : IntegritySpec)
    (plaintext : List UInt8) (chunk : ChunkSpec) : List (Nat × Block) :=
  integrity.macsBetween transform.encrypt plaintext chunk.committed (chunk.stop.getD 0)

/-- What holds of every connection of a plan over a partition of the file. -/
structure PlannedConnection (integrity : IntegritySpec) (total : Nat) (chunk : ChunkSpec) : Prop where
  start_le : chunk.start ≤ chunk.committed
  boundary : integrity.isBoundary chunk.committed
  stop_eq : ∃ stop, chunk.stop = some stop ∧ chunk.committed ≤ stop ∧ stop ≤ total

theorem planned_perm (hint : transform.integrity = some integrity)
    (hsize : integrity.boundaries.getLast? = some plaintext.length)
    (hparts : Partitions plaintext.length chunks)
    (hsound : integrity.Sound transform.encrypt plaintext (transform.adopt checkpoint))
    (freshId : ChunkId) (htotal : total.getD plaintext.length = plaintext.length) :
    let plan := planResume transform freshId chunks checkpoint total
    (∀ chunk ∈ plan.chunks, PlannedConnection integrity plaintext.length chunk) ∧
    plan.macs = insertAll ∅ (plan.chunks.flatMap (transform.keptMacs integrity plaintext)) ∧
    (plan.chunks.flatMap (transform.keptMacs integrity plaintext) ++
      plan.chunks.flatMap (transform.remainingMacs integrity plaintext)).Perm
        ((List.range integrity.chunkCount).map fun index =>
          (index, integrity.referenceMac transform.encrypt plaintext index)) := by
  have hwf := wellFormed hint
  obtain ⟨sorted, hperm, hconsecutive⟩ := hparts
  have hstored : ∀ chunk ∈ chunks,
      chunk.WellFormed ∧ ∃ stop, chunk.stop = some stop ∧ stop ≤ plaintext.length :=
    fun chunk hmem => hconsecutive.of_mem (hperm.mem_iff.mp hmem)
  rcases planResume_cases hint (fun chunk hmem => (hstored chunk hmem).1) freshId checkpoint total
    with ⟨id, hsingle, hmacs⟩ | ⟨hall, hmacs⟩
  · have hstop : total.or integrity.boundaries.getLast? = some plaintext.length := by
      cases total with
      | none => exact hsize
      | some total => exact congrArg some htotal
    dsimp only
    rw [hsingle, hmacs, hstop]
    refine ⟨?_, ?_, ?_⟩
    · intro chunk hmem
      rw [List.mem_singleton.mp hmem]
      exact ⟨Nat.le_refl 0, rfl, _, rfl, Nat.zero_le _, Nat.le_refl _⟩
    · simp [keptMacs, IntegritySpec.macsBetween_of_passed_eq, insertAll]
    · simp [keptMacs, remainingMacs, IntegritySpec.macsBetween_of_passed_eq,
        IntegritySpec.macsBetween_all hwf hsize]
  · have hplanned : ∀ chunk ∈ (planResume transform freshId chunks checkpoint total).chunks,
        PlannedConnection integrity plaintext.length chunk := by
      intro chunk hmem
      obtain ⟨stored, hmem, hrewound⟩ := IntegritySpec.exists_rewound hall hmem
      obtain ⟨hchunk, stop, hstop, hle⟩ := hstored stored hmem
      have hcommitted := Nat.le_trans hrewound.le_committed (hchunk.committed_le stop hstop)
      rw [hrewound.eq]
      exact ⟨hrewound.start_le, hrewound.boundary, stop, hstop, hcommitted, hle⟩
    refine ⟨hplanned, ?_, ?_⟩
    · refine hmacs.trans (congrArg _ (List.flatMap_congr fun chunk hmem => ?_))
      obtain ⟨stored, -, hrewound⟩ := IntegritySpec.exists_rewound hall hmem
      refine hsound.recordedMacs_eq fun index hlo hhi => hrewound.recorded index ?_ hhi
      rwa [hrewound.eq] at hlo
    refine (List.flatMap_append_perm _ _ _).trans ?_
    have hjoin : (planResume transform freshId chunks checkpoint total).chunks.flatMap (fun chunk =>
        transform.keptMacs integrity plaintext chunk ++
          transform.remainingMacs integrity plaintext chunk) =
        chunks.flatMap (fun chunk =>
          integrity.macsBetween transform.encrypt plaintext chunk.start (chunk.stop.getD 0)) := by
      rw [← IntegritySpec.flatMap_rewound hall (fun _ _ => rfl)]
      refine List.flatMap_congr fun chunk hmem => ?_
      obtain ⟨hlo, -, stop, hstop, hhi, -⟩ := hplanned chunk hmem
      rw [keptMacs, remainingMacs, hstop]
      exact IntegritySpec.macsBetween_append hlo hhi
    rw [hjoin]
    refine (hperm.flatMap_right _).trans (List.Perm.of_eq ?_)
    rw [IntegritySpec.flatMap_macsBetween hconsecutive, IntegritySpec.macsBetween_all hwf hsize]

/-- The connections of a plan, each walking what it has left. -/
theorem mapM_walk (hint : transform.integrity = some integrity) {chunks : List ChunkSpec}
    {deliveries : ChunkSpec → List (List UInt8)}
    (hplanned : ∀ chunk ∈ chunks, PlannedConnection integrity plaintext.length chunk)
    (hdeliveries : ∀ chunk ∈ chunks,
      (deliveries chunk).flatten = slice plaintext chunk.committed (chunk.stop.getD 0)) :
    chunks.mapM (fun chunk => transform.walk chunk.committed (deliveries chunk)) =
      .ok (chunks.map (transform.remainingMacs integrity plaintext)) := by
  induction chunks with
  | nil => rfl
  | cons chunk chunks ih =>
    obtain ⟨hlo, hb, stop, hstop, hhi, hle⟩ := hplanned chunk (List.mem_cons_self ..)
    have hbuffers := hdeliveries chunk (List.mem_cons_self ..)
    rw [hstop, Option.getD_some] at hbuffers
    rw [List.mapM_cons, walk_eq hint hb hbuffers hhi hle,
      ih (fun c hc => hplanned c (List.mem_cons_of_mem _ hc))
        (fun c hc => hdeliveries c (List.mem_cons_of_mem _ hc))]
    simp only [List.map_cons, remainingMacs, hstop, Option.getD_some]
    rfl

/-- After `planResume`, the kept MACs and the MACs the connections compute over their remaining
bytes are exactly one for every provider chunk, each the reference MAC; every connection starts on
a boundary inside its bounds and keeps the contiguous run of MACs from its start to there. -/
theorem planResume_completes_macs (transform : StreamTransform) (integrity : IntegritySpec)
    (plaintext : List UInt8) (hint : transform.integrity = some integrity)
    (hsize : integrity.boundaries.getLast? = some plaintext.length)
    (chunks : List ChunkSpec) (hparts : Partitions plaintext.length chunks)
    (checkpoint : TransformCheckpoint)
    (hrecorded : transform.Recorded plaintext checkpoint.macs)
    (freshId : ChunkId) (total : Option Nat)
    (htotal : total.getD plaintext.length = plaintext.length)
    (deliveries : ChunkSpec → List (List UInt8)) :
    let plan := planResume transform freshId chunks checkpoint total
    (∀ chunk ∈ plan.chunks,
      (deliveries chunk).flatten = slice plaintext chunk.committed (chunk.stop.getD 0)) →
    (∃ emitted,
      plan.chunks.mapM (fun chunk => transform.walk chunk.committed (deliveries chunk)) =
        .ok emitted ∧
      (plan.macs.toList ++ emitted.flatten).Perm ((List.range integrity.chunkCount).map fun index =>
        (index, integrity.referenceMac transform.encrypt plaintext index))) ∧
    ∀ chunk ∈ plan.chunks, integrity.isBoundary chunk.committed ∧
      ∃ stop, chunk.stop = some stop ∧ chunk.start ≤ chunk.committed ∧ chunk.committed ≤ stop ∧
        ∀ index, integrity.passed chunk.start ≤ index → index < integrity.passed stop →
          (index ∈ plan.macs ↔ index < integrity.passed chunk.committed) := by
  intro plan hdeliveries
  obtain ⟨hplanned, hmacs, hperm⟩ := planned_perm hint hsize hparts
    (adopt_sound hint (hrecorded.sound hint) : integrity.Sound transform.encrypt plaintext
      (transform.adopt checkpoint)) freshId htotal
  have hkeys : (((List.range integrity.chunkCount).map fun index =>
      (index, integrity.referenceMac transform.encrypt plaintext index)).map (·.1)).Nodup := by
    simpa [Function.comp_def] using List.nodup_range
  have hnodup := (hperm.map (·.1)).nodup_iff.mpr hkeys
  have htoList : plan.macs.toList.Perm
      (plan.chunks.flatMap (transform.keptMacs integrity plaintext)) := by
    rw [show plan.macs = _ from hmacs]
    have hempty : (∅ : Std.TreeMap Nat Block).toList = [] := rfl
    refine (insertAll_toList_perm ?_).trans (List.Perm.of_eq (by rw [hempty, List.nil_append]))
    rw [List.map_append] at hnodup
    rw [hempty, List.nil_append]
    exact (List.nodup_append.mp hnodup).1
  refine ⟨⟨_, mapM_walk hint hplanned hdeliveries, ?_⟩, fun chunk hmem => ?_⟩
  · rw [← List.flatMap_def]
    exact (htoList.append_right _).trans hperm
  · obtain ⟨hlo, hb, stop, hstop, hhi, hle⟩ := hplanned chunk hmem
    refine ⟨hb, stop, hstop, hlo, hhi, fun index hfirst hlast => ⟨fun hkept => ?_, fun hlt => ?_⟩⟩
    · -- a kept MAC is not one of those left to compute
      obtain ⟨mac, hget⟩ := Option.isSome_iff_exists.mp
        (Std.TreeMap.mem_iff_isSome_getElem?.mp hkept)
      have hleft := htoList.mem_iff.mp (Std.TreeMap.mem_toList_iff_getElem?_eq_some.mpr hget)
      refine Nat.lt_of_not_le fun hge => ?_
      have hright : (index, integrity.referenceMac transform.encrypt plaintext index) ∈
          plan.chunks.flatMap (transform.remainingMacs integrity plaintext) := by
        refine List.mem_flatMap.mpr ⟨chunk, hmem, IntegritySpec.mem_macsBetween.mpr ⟨⟨hge, ?_⟩, rfl⟩⟩
        rw [hstop]
        exact hlast
      rw [List.map_append, List.nodup_append] at hnodup
      exact hnodup.2.2 _ (List.mem_map_of_mem hleft) _ (List.mem_map_of_mem hright) rfl
    · have hleft : (index, integrity.referenceMac transform.encrypt plaintext index) ∈
          plan.chunks.flatMap (transform.keptMacs integrity plaintext) :=
        List.mem_flatMap.mpr
          ⟨chunk, hmem, IntegritySpec.mem_macsBetween.mpr ⟨⟨hfirst, hlt⟩, rfl⟩⟩
      have hget := Std.TreeMap.mem_toList_iff_getElem?_eq_some.mp (htoList.mem_iff.mpr hleft)
      exact Std.TreeMap.mem_iff_isSome_getElem?.mpr (by rw [hget]; rfl)

end StreamTransform

/-! ## A stream of five bytes in two provider chunks -/

def shortIntegrity : IntegritySpec where
  algorithm := integrityCbcMacChain
  boundaries := [2, 5]
  iv := List.replicate 16 0
  expected := List.replicate 8 0

def shortTransform : StreamTransform where
  description := {
    cipher := {
      algorithm := cipherAes128Ctr, keyReference := some "key"
      nonce := List.replicate 8 0, firstBlock := 0 }
    integrity := some shortIntegrity }
  fingerprint := "short"
  encrypt := id
  valid := by rfl

/-- One connection stopped after the first provider chunk, and its MAC was recorded. -/
def shortLayout : List ChunkSpec := [{ id := 7, start := 0, stop := some 5, committed := 3 }]

def shortPlaintext : List UInt8 := [1, 2, 3, 4, 5]

theorem shortLayout_wellFormed : ∀ chunk ∈ shortLayout, chunk.WellFormed := by
  intro chunk hmem
  obtain rfl := List.mem_singleton.mp hmem
  exact ⟨by decide, by simp⟩

theorem shortLayout_partitions : Partitions 5 shortLayout :=
  ⟨_, .refl _, rfl, shortLayout_wellFormed _ (List.mem_singleton.mpr rfl), 5, rfl, rfl⟩

namespace StreamTransform

theorem shortRecorded : shortTransform.Recorded shortPlaintext
    [(0, shortIntegrity.referenceMac id shortPlaintext 0)] := by
  have hplanned : { id := 7, start := 0, stop := some 5, committed := 0 } ∈
      (planResume shortTransform 0 shortLayout
        { fingerprint := some shortTransform.fingerprint, macs := [] } (some 5)).chunks :=
    List.mem_singleton.mpr rfl
  have hwalked : shortTransform.walk 0 [[1], [2, 3]] =
      .ok (shortIntegrity.macsBetween id shortPlaintext 0 3) :=
    walk_eq rfl rfl rfl (by decide) (by decide)
  have hdelivered : [[1], [2, 3]].flatten = slice shortPlaintext 0 3 := rfl
  have hwithin : 0 ≤ 3 ∧ 3 ≤ shortPlaintext.length := by decide
  refine .attempt .none shortLayout_wellFormed hplanned hdelivered hwithin hwalked
    fun mac hmac => ?_
  obtain rfl := List.mem_singleton.mp hmac
  exact .inr (IntegritySpec.mem_macsBetween.mpr ⟨by decide, rfl⟩)

/-- The second attempt keeps the recorded MAC and computes the other one. -/
theorem planResume_completes_macs_short :
    let plan := planResume shortTransform 0 shortLayout
      { fingerprint := some shortTransform.fingerprint
        macs := [(0, shortIntegrity.referenceMac id shortPlaintext 0)] } (some 5)
    ∃ emitted,
      plan.chunks.mapM (fun chunk => shortTransform.walk chunk.committed [[3, 4], [5]]) =
        .ok emitted ∧
      (plan.macs.toList ++ emitted.flatten).Perm ((List.range 2).map fun index =>
        (index, shortIntegrity.referenceMac id shortPlaintext index)) :=
  (planResume_completes_macs shortTransform shortIntegrity shortPlaintext rfl rfl shortLayout
    shortLayout_partitions _ shortRecorded 0 (some 5) rfl (fun _ => [[3, 4], [5]])
    (fun chunk hmem => by obtain rfl := List.mem_singleton.mp hmem; rfl)).1

end StreamTransform

end RDownloader
