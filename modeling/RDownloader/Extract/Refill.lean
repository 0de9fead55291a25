import RDownloader.Core.Dates
import RDownloader.Core.DownloadState
import RDownloader.Lib.Covering
import RDownloader.Usenet.Par2Names

/-!
# The postponed recovery volumes that close a gap (`rd-extract/src/par2_refill.rs`)

One pass over the postponed volumes, smallest first, takes as many as the announced blocks say are
needed. A volume that announces nothing counts as one block, also where the question is whether the
volumes can close the gap at all, and the pass does not look back for what it could spare.
-/

namespace RDownloader

/-- What the planner reads of a row of the package. -/
structure PackageFile where
  fileName : Text
  state : DownloadState
  deriving DecidableEq

/-- `UNKNOWN_VOLUME_BLOCKS`. -/
def unknownVolumeBlocks : Nat := 1

def volumeBlocks (fileName : Text) : Nat := (par2VolumeBlocks fileName).getD unknownVolumeBlocks

namespace PackageFile

def blocks (file : PackageFile) : Nat := volumeBlocks file.fileName

/-- The order of `(volume_blocks, file_name)`. -/
def notAfter (a b : PackageFile) : Bool :=
  a.blocks < b.blocks || a.blocks = b.blocks && Text.notAfter a.fileName b.fileName

end PackageFile

/-- `u32::saturating_add`. -/
def saturatingAddU32 (a b : Nat) : Nat := min (a + b) u32Max

/-- The volumes `plan` chooses from, smallest first. -/
def postponedVolumes (members : List PackageFile) : List PackageFile :=
  (members.filter (·.state = .skipped)).mergeSort PackageFile.notAfter

/-- The loop of `plan`. -/
def takeVolumes (needed : Nat) : Nat → List PackageFile → List PackageFile
  | _, [] => []
  | covered, file :: files =>
    if needed ≤ covered then []
    else file :: takeVolumes needed (saturatingAddU32 covered file.blocks) files

/-- The postponed volumes whose blocks cover `needed`, taken from the small end. -/
def plan (members : List PackageFile) (needed : Nat) : List PackageFile :=
  let postponed := postponedVolumes members
  let total := postponed.foldl (fun total file => saturatingAddU32 total file.blocks) 0
  if total < needed then [] else takeVolumes needed 0 postponed

/-! ## What a plan is for -/

/-- What the volumes really carry: what a name announces is true, and every volume carries a
block. -/
structure Carried (actual : PackageFile → Nat) : Prop where
  announced : ∀ file named, par2VolumeBlocks file.fileName = some named → actual file = named
  unnamed : ∀ file, par2VolumeBlocks file.fileName = none → 1 ≤ actual file

/-- The postponed volumes are fetched when they can help, and only as many as help. -/
structure Helps (actual : PackageFile → Nat) (members : List PackageFile) (needed : Nat)
    (chosen : List PackageFile) : Prop where
  covers : chosen = [] ∨ needed ≤ Covering.total PackageFile.blocks chosen
  final : chosen = [] → Covering.total actual (postponedVolumes members) < needed
  spares : Covering.NoneSpare PackageFile.blocks needed chosen

/-! ## The pass -/

namespace PackageFile

theorem notAfter_iff {a b : PackageFile} : a.notAfter b ↔
    a.blocks < b.blocks ∨ a.blocks = b.blocks ∧ Text.notAfter a.fileName b.fileName := by
  simp [notAfter]

theorem notAfter_trans (a b c : PackageFile) (h : a.notAfter b) (h' : b.notAfter c) :
    a.notAfter c := by
  rw [notAfter_iff] at *
  rcases h with h | ⟨heq, h⟩
  · rcases h' with h' | ⟨heq', -⟩ <;> exact .inl (by omega)
  · rcases h' with h' | ⟨heq', h'⟩
    · exact .inl (by omega)
    · exact .inr ⟨heq.trans heq', Text.notAfter_trans h h'⟩

theorem notAfter_total (a b : PackageFile) : (a.notAfter b || b.notAfter a) = true := by
  rw [Bool.or_eq_true, notAfter_iff, notAfter_iff]
  have := Text.notAfter_total a.fileName b.fileName
  rcases Nat.lt_trichotomy a.blocks b.blocks with hlt | heq | hgt
  · exact .inl (.inl hlt)
  · exact this.imp (fun h => .inr ⟨heq, h⟩) fun h => .inr ⟨heq.symm, h⟩
  · exact .inr (.inl hgt)

end PackageFile

variable {needed : Nat} {members files : List PackageFile}

/-- The volumes go up in what they announce. -/
theorem pairwise_postponedVolumes (members : List PackageFile) :
    (postponedVolumes members).Pairwise fun a b => a.blocks ≤ b.blocks := by
  refine (List.pairwise_mergeSort PackageFile.notAfter_trans PackageFile.notAfter_total _).imp ?_
  intro a b h
  rcases PackageFile.notAfter_iff.mp h with hlt | ⟨heq, -⟩
  · exact Nat.le_of_lt hlt
  · exact Nat.le_of_eq heq

theorem foldl_saturatingAddU32 (files : List PackageFile) (start : Nat) :
    files.foldl (fun total file => saturatingAddU32 total file.blocks) (min start u32Max) =
      min (start + Covering.total PackageFile.blocks files) u32Max := by
  induction files generalizing start with
  | nil => rfl
  | cons file files ih =>
    have hstep : saturatingAddU32 (min start u32Max) file.blocks =
        min (start + file.blocks) u32Max := by
      unfold saturatingAddU32
      omega
    rw [List.foldl_cons, hstep, ih, Covering.total_cons, Nat.add_assoc]

/-- The word saturates above every gap. -/
theorem takeVolumes_eq (hword : needed ≤ u32Max) (covered : Nat) (files : List PackageFile) :
    takeVolumes needed (min covered u32Max) files =
      Covering.untilCovered PackageFile.blocks needed covered files := by
  induction files generalizing covered with
  | nil => rfl
  | cons file files ih =>
    have hcovered : needed ≤ min covered u32Max ↔ needed ≤ covered := by omega
    have hstep : saturatingAddU32 (min covered u32Max) file.blocks =
        min (covered + file.blocks) u32Max := by
      unfold saturatingAddU32
      omega
    rw [takeVolumes, Covering.untilCovered, hstep, ih]
    simp only [hcovered]

/-- A plan is nothing where the announced blocks do not reach, and else the volumes from the small
end until they do. -/
theorem plan_eq (hword : needed ≤ u32Max) (members : List PackageFile) :
    plan members needed =
      if Covering.total PackageFile.blocks (postponedVolumes members) < needed then []
      else Covering.untilCovered PackageFile.blocks needed 0 (postponedVolumes members) := by
  have htotal := foldl_saturatingAddU32 (postponedVolumes members) 0
  have htaken := takeVolumes_eq hword 0 (postponedVolumes members)
  rw [Nat.zero_min] at htotal htaken
  have hshort : min (0 + Covering.total PackageFile.blocks (postponedVolumes members)) u32Max <
      needed ↔ Covering.total PackageFile.blocks (postponedVolumes members) < needed := by omega
  unfold plan
  dsimp only
  rw [htotal, htaken]
  simp only [hshort]

/-- The counts the postponed volumes announce, in order. -/
def announcedCounts (members : List PackageFile) : List Nat :=
  ((members.filter (·.state = .skipped)).map PackageFile.blocks).mergeSort (· ≤ ·)

theorem map_blocks_postponedVolumes (members : List PackageFile) :
    (postponedVolumes members).map PackageFile.blocks = announcedCounts members := by
  have hperm : ((postponedVolumes members).map PackageFile.blocks).Perm
      (announcedCounts members) :=
    ((List.mergeSort_perm ..).map _).trans (List.mergeSort_perm ..).symm
  have htrans (a b c : Nat) (h : decide (a ≤ b) = true) (h' : decide (b ≤ c) = true) :
      decide (a ≤ c) = true :=
    decide_eq_true (Nat.le_trans (of_decide_eq_true h) (of_decide_eq_true h'))
  have htotal (a b : Nat) : (decide (a ≤ b) || decide (b ≤ a)) = true := by
    simpa using Nat.le_total a b
  have hsorted : (announcedCounts members).Pairwise (· ≤ ·) :=
    (List.pairwise_mergeSort htrans htotal _).imp of_decide_eq_true
  exact hperm.eq_of_pairwise (fun _ _ _ _ => Nat.le_antisymm)
    (List.pairwise_map.mpr (pairwise_postponedVolumes members)) hsorted

/-! ## When a plan helps -/

theorem total_postponedVolumes (members : List PackageFile) :
    Covering.total PackageFile.blocks (postponedVolumes members) = (announcedCounts members).sum := by
  rw [Covering.total, map_blocks_postponedVolumes]

/-- Only a gap of nothing leaves nothing to take once the announced blocks reach it. -/
theorem plan_eq_nil_iff (hword : needed ≤ u32Max) (members : List PackageFile) :
    plan members needed = [] ↔ (announcedCounts members).sum < needed ∨ needed = 0 := by
  rw [plan_eq hword, total_postponedVolumes]
  split
  next hlt => exact iff_of_true rfl (.inl hlt)
  next hle =>
    rw [Covering.untilCovered_eq_nil_iff, Nat.le_zero]
    constructor
    · rintro (hnil | hzero)
      · rw [← total_postponedVolumes, hnil] at hle
        exact .inr (Nat.eq_zero_of_not_pos hle)
      · exact .inr hzero
    · exact fun h => .inr (h.resolve_left hle)

theorem plan_covers (hword : needed ≤ u32Max) (hreach : needed ≤ (announcedCounts members).sum) :
    needed ≤ Covering.total PackageFile.blocks (plan members needed) := by
  rw [plan_eq hword, total_postponedVolumes, if_neg (Nat.not_lt.mpr hreach)]
  rw [← total_postponedVolumes, ← Nat.zero_add (Covering.total ..)] at hreach
  have := Covering.le_untilCovered hreach
  omega

theorem noneSpare_plan_iff (hword : needed ≤ u32Max)
    (hreach : needed ≤ (announcedCounts members).sum) :
    Covering.NoneSpare PackageFile.blocks needed (plan members needed) ↔
      Covering.Thrifty needed (announcedCounts members) := by
  rw [plan_eq hword, total_postponedVolumes, if_neg (Nat.not_lt.mpr hreach),
    ← map_blocks_postponedVolumes]
  exact Covering.noneSpare_untilCovered_iff (pairwise_postponedVolumes members)
    (total_postponedVolumes members ▸ hreach)

/-- A plan helps exactly when there is a gap, the announced blocks reach it or what the volumes
really carry does not either, and the counts are thrifty. -/
theorem plan_helps_iff (actual : PackageFile → Nat) (members : List PackageFile)
    (needed : UInt32) :
    Helps actual members needed.toNat (plan members needed.toNat) ↔
      0 < needed.toNat ∧
        (needed.toNat ≤ (announcedCounts members).sum ∨
          Covering.total actual (postponedVolumes members) < needed.toNat) ∧
        Covering.Thrifty needed.toNat (announcedCounts members) := by
  have hword : needed.toNat ≤ u32Max := Nat.le_of_lt_succ needed.toNat_lt
  generalize needed.toNat = needed at hword
  have hnil := plan_eq_nil_iff hword members
  by_cases hreach : needed ≤ (announcedCounts members).sum
  · have hthrifty := noneSpare_plan_iff hword hreach
    constructor
    · intro h
      refine ⟨Nat.pos_of_ne_zero fun hzero => ?_, .inl hreach, hthrifty.mp h.spares⟩
      have := h.final (hnil.mpr (.inr hzero))
      omega
    · rintro ⟨hpos, -, h⟩
      refine ⟨.inr (plan_covers hword hreach), fun hempty => ?_, hthrifty.mpr h⟩
      rcases hnil.mp hempty with hlt | hzero <;> omega
  · rw [hnil.mpr (.inl (Nat.lt_of_not_le hreach))]
    constructor
    · intro h
      exact ⟨by omega, .inr (h.final rfl), .of_sum_lt (Nat.lt_of_not_le hreach)⟩
    · rintro ⟨-, h, -⟩
      exact ⟨.inl rfl, fun _ => h.resolve_left hreach, fun _ _ _ heq => by simp at heq⟩

/-- A volume under a name that says nothing carries four blocks, two are needed, and nothing is
fetched. And of one, two and sixteen announced blocks a gap of sixteen takes all three volumes,
although the last alone covers it. -/
theorem plan_gives_up_and_wastes :
    let unnamed : PackageFile := { fileName := "release.vol.par2".toList, state := .skipped }
    let actual (file : PackageFile) : Nat := (par2VolumeBlocks file.fileName).getD 4
    let named : List PackageFile := ["r.vol0+01.par2", "r.vol1+02.par2", "r.vol3+16.par2"].map
      fun name => { fileName := name.toList, state := .skipped }
    Carried actual ∧ plan [unnamed] 2 = [] ∧
      2 ≤ Covering.total actual (postponedVolumes [unnamed]) ∧
      ¬ Helps actual [unnamed] 2 (plan [unnamed] 2) ∧
      plan named 16 = named ∧ ¬ Helps actual named 16 (plan named 16) := by
  intro unnamed actual named
  have hcarried : Carried actual :=
    ⟨fun file count h => by simp only [actual, h, Option.getD_some],
      fun file h => by simp [actual, h]⟩
  have hempty : plan [unnamed] 2 = [] := by decide +kernel
  have henough : 2 ≤ Covering.total actual (postponedVolumes [unnamed]) := by decide +kernel
  have hsorted : postponedVolumes named = named :=
    List.mergeSort_of_pairwise (by decide +kernel)
  have hall : plan named 16 = named := by
    unfold plan
    rw [hsorted]
    decide +kernel
  refine ⟨hcarried, hempty, henough, fun h => ?_, hall, fun h => ?_⟩
  · exact Nat.not_lt.mpr henough (h.final hempty)
  · rw [hall] at h
    have hspare := h.spares [] _ _ rfl
    revert hspare
    decide +kernel

end RDownloader
