import RDownloader.Core.Words
import RDownloader.Usenet.Par2Names
import Mathlib.Algebra.Order.BigOperators.Group.Finset
import Mathlib.Algebra.Order.BigOperators.Group.List
import Mathlib.Order.Interval.Finset.Nat
import Mathlib.Algebra.BigOperators.Group.Finset.Basic
import Mathlib.Tactic.Linarith

/-!
# Whether a set can still be repaired (`rd-usenet/src/health.rs`)

The missing blocks are counted from below, the block size and the blocks still to be had from
above. A set that does not say enough gets no verdict.
-/

namespace RDownloader

/-- How far one file of a set has got. -/
inductive Standing where
  /-- Still to come, running, or ended some way that says nothing about its articles. -/
  | stillOpen
  /-- Assembled; `missingBytes` of its articles were on no server. -/
  | finished (missingBytes : Nat)
  /-- Not one of its articles was on any server. -/
  | lost
  deriving DecidableEq, Repr

/-- One file of a set: its name and marking, its size in the NZB and its standing. -/
structure SetFile where
  name : Text
  recovery : Bool := false
  nzbBytes : Nat
  standing : Standing
  deriving DecidableEq, Repr

def isRecovery (file : SetFile) : Bool :=
  file.recovery || isRecoveryVolume file.name

/-- What the first pass over the files adds up. -/
structure Tally where
  available : Nat := 0
  volumes : Nat := 0
  blockBound : Option Nat := none
  deriving DecidableEq, Repr

section
variable (alphanumeric : Char → Bool)

/-- One file of the first pass; `none` ends it without a verdict. -/
def Tally.count (tally : Tally) (file : SetFile) : Option Tally :=
  if !isRecovery file then
    if file.standing = .stillOpen ∧ !looksLikeFileName alphanumeric file.name then none
    else some tally
  else if isPar2Index file.name then some tally
  else do
    let blocks ← par2VolumeBlocks file.name
    let bound := file.nzbBytes / blocks
    return {
      volumes := tally.volumes + 1
      blockBound :=
        if 0 < blocks ∧ 0 < file.nzbBytes then some ((tally.blockBound.map (min · bound)).getD bound)
        else tally.blockBound
      available :=
        if file.standing ≠ .lost then saturatingAdd tally.available blocks else tally.available }

/-- The encoded bytes a file has certainly lost. -/
def SetFile.lostBytes (file : SetFile) : Nat :=
  match file.standing with
  | .stillOpen => 0
  | .finished missingBytes => missingBytes
  | .lost => file.nzbBytes

end

/-! ## What a set really is -/

/-- What a file is and what of it is on no server, whatever its name says. -/
inductive Nature where
  | payload (missing : Finset Nat)
  | recovery (bytes blocks : Nat)

/-- A file of a set, with its nature. -/
structure TrueFile where
  seen : SetFile
  nature : Nature

namespace TrueFile

/-- A name or a mark that says something says the truth. A volume holds each block behind a packet
header, and encoding does not make it smaller. -/
structure Truthful (alphanumeric : Char → Bool) (blockSize : Nat) (file : TrueFile) : Prop where
  recovery : isRecovery file.seen → ∃ bytes blocks, file.nature = .recovery bytes blocks
  index : isPar2Index file.seen.name →
    ∀ bytes blocks, file.nature = .recovery bytes blocks → blocks = 0
  volume : ∀ named, par2VolumeBlocks file.seen.name = some named →
    ∀ bytes blocks, file.nature = .recovery bytes blocks → blocks = named
  payload : looksLikeFileName alphanumeric file.seen.name → ¬ isRecovery file.seen →
    ∃ missing, file.nature = .payload missing
  bytes : ∀ bytes blocks, file.nature = .recovery bytes blocks →
    blocks * (blockSize + 1) ≤ bytes ∧ bytes ≤ file.seen.nzbBytes
  missing : ∀ missing, file.nature = .payload missing → 0 < file.seen.lostBytes → missing.Nonempty

end TrueFile

/-- A volume whose blocks its name counts. -/
def SetFile.Volume (file : SetFile) (blocks : Nat) : Prop :=
  isRecovery file ∧ ¬ isPar2Index file.name ∧ par2VolumeBlocks file.name = some blocks ∧
    0 < blocks ∧ 0 < file.nzbBytes

variable {alphanumeric : Char → Bool}

theorem sum_filter_le {α : Type u} (p : α → Bool) (f g : α → Nat) (l : List α)
    (h : ∀ a ∈ l, p a → f a ≤ g a) : ((l.filter p).map f).sum ≤ (l.map g).sum := by
  induction l with
  | nil => exact Nat.le_refl _
  | cons a l ih =>
    have hrest := ih fun a hmem => h a (List.mem_cons_of_mem _ hmem)
    rw [List.filter_cons, List.map_cons, List.sum_cons]
    split
    · next hp =>
      rw [List.map_cons, List.sum_cons]
      exact Nat.add_le_add (h a (List.mem_cons_self ..) hp) hrest
    · exact Nat.le_trans hrest (Nat.le_add_left ..)

end RDownloader
