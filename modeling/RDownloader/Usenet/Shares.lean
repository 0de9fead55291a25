import Mathlib.Algebra.Order.BigOperators.Group.List
import Mathlib.Algebra.Order.Ring.Nat
import Mathlib.Data.List.Forall2
import RDownloader.Core.Words
import RDownloader.Db.ChunkLedger
import RDownloader.Lib.Apportion

/-!
# The busy connections of each file (`rd-usenet/src/connections.rs`)

Lines that several files share would be counted once for each of them, so the counts are scaled down
to the connections that are busy. Words are numbers: a product saturates, a sum wraps.
-/

namespace RDownloader

/-- `Iterator::sum` of words, in a release build. -/
def wrappingSum (values : List Nat) : Nat := values.sum % 2 ^ 64

/-- `u32::try_from(value).unwrap_or(u32::MAX)`. -/
def countOf (value : Nat) : Nat := min value u32Max

/-- One file while its share is found: the connections it gets and what was rounded off. -/
structure SharePart where
  id : DownloadId
  whole : Nat
  remainder : Nat
  deriving DecidableEq

namespace SharePart

def raise (part : SharePart) : SharePart := { part with whole := part.whole + 1 }

def count (part : SharePart) : DownloadId × Nat := (part.id, countOf part.whole)

end SharePart

/-- The parts of the files, each rounded down. -/
def wholeParts (files : List (DownloadId × Nat)) (busy counted : Nat) : List SharePart :=
  files.map fun (id, lines) =>
    let scaled := saturatingMul lines busy
    { id, whole := scaled / counted, remainder := scaled % counted }

/-- The places of the parts, the largest remainder first. -/
def remainderOrder (parts : List SharePart) : List Nat :=
  (List.range parts.length).mergeSort fun i j =>
    (parts[j]?.elim 0 (·.remainder)) ≤ (parts[i]?.elim 0 (·.remainder))

/-- Each file's connections, scaled down where lines are shared. -/
def shares (files : List (DownloadId × Nat)) (busy : Nat) : List (DownloadId × Nat) :=
  let counted := wrappingSum (files.map (·.2))
  if counted ≤ busy then files.map fun (id, lines) => (id, countOf lines)
  else
    let parts := wholeParts files busy counted
    let given := wrappingSum (parts.map (·.whole))
    let raised := (remainderOrder parts).take (busy - given)
    (raised.foldl (fun parts index => parts.modify index SharePart.raise) parts).map
      SharePart.count

variable {files : List (DownloadId × Nat)} {busy counted : Nat}

/-- A share that is no more than the lines and no more than what is busy fits a `u32`. -/
theorem le_u32Max_of_product {share lines busy : Nat} (hlines : share ≤ lines) (hbusy : share ≤ busy)
    (hproduct : lines * busy ≤ u64Max) : share ≤ u32Max := by
  have hsquare : share * share ≤ u64Max := Nat.le_trans (Nat.mul_le_mul hlines hbusy) hproduct
  refine Nat.le_of_not_lt fun hlt => ?_
  have hlarge : (u32Max + 1) * (u32Max + 1) ≤ share * share := Nat.mul_le_mul hlt hlt
  have : u64Max < (u32Max + 1) * (u32Max + 1) := by decide
  omega

theorem countOf_eq {share lines busy : Nat} (hlines : share ≤ lines) (hbusy : share ≤ busy)
    (hproduct : lines * busy ≤ u64Max) : countOf share = share :=
  Nat.min_eq_left (le_u32Max_of_product hlines hbusy hproduct)

/-- The parts where no product saturates. -/
theorem wholeParts_eq (hproduct : ∀ file ∈ files, file.2 * busy ≤ u64Max) (counted : Nat) :
    wholeParts files busy counted = files.map fun file =>
      { id := file.1, whole := file.2 * busy / counted, remainder := file.2 * busy % counted } := by
  refine List.map_congr_left fun file hfile => ?_
  have hscaled : saturatingMul file.2 busy = file.2 * busy := Nat.min_eq_left (hproduct file hfile)
  dsimp only
  rw [hscaled]

/-- The remainder at a place. -/
def remainderAt (parts : List SharePart) (i : Nat) : Nat := parts[i]?.elim 0 (·.remainder)

theorem map_remainderAt (parts : List SharePart) :
    (List.range parts.length).map (remainderAt parts) = parts.map (·.remainder) := by
  refine List.ext_getElem (by simp) fun i h h' => ?_
  have hi : i < parts.length := by simpa using h
  simp [remainderAt, List.getElem?_eq_getElem hi]

theorem pairwise_remainderOrder (parts : List SharePart) :
    (remainderOrder parts).Pairwise fun i j => remainderAt parts j ≤ remainderAt parts i := by
  have htrans (i j k : Nat) (h : decide (remainderAt parts j ≤ remainderAt parts i) = true)
      (h' : decide (remainderAt parts k ≤ remainderAt parts j) = true) :
      decide (remainderAt parts k ≤ remainderAt parts i) = true :=
    decide_eq_true (Nat.le_trans (of_decide_eq_true h') (of_decide_eq_true h))
  have htotal (i j : Nat) : (decide (remainderAt parts j ≤ remainderAt parts i) ||
      decide (remainderAt parts i ≤ remainderAt parts j)) = true := by
    simpa using Nat.le_total _ _
  exact (List.pairwise_mergeSort htrans htotal _).imp of_decide_eq_true

theorem remainderOrder_perm (parts : List SharePart) :
    (remainderOrder parts).Perm (List.range parts.length) :=
  List.mergeSort_perm _ _

/-- The places that are raised: different ones, each of a part with a remainder. -/
theorem raised_spec {parts : List SharePart} {left : Nat}
    (hleft : left ≤ parts.countP fun part => 0 < part.remainder) :
    ((remainderOrder parts).take left).Nodup ∧ ((remainderOrder parts).take left).length = left ∧
      ∀ i ∈ (remainderOrder parts).take left, i < parts.length ∧ 0 < remainderAt parts i := by
  have hperm := remainderOrder_perm parts
  have hcount : (remainderOrder parts).countP (fun i => 0 < remainderAt parts i) =
      parts.countP fun part => 0 < part.remainder := by
    have hmap := congrArg (List.countP fun remainder => decide (0 < remainder))
      (map_remainderAt parts)
    rw [List.countP_map, List.countP_map] at hmap
    rw [hperm.countP_eq]
    exact hmap
  have hpos := Apportion.pos_of_mem_take (pairwise_remainderOrder parts) (hcount ▸ hleft)
  have hlength : left ≤ (remainderOrder parts).length := by
    have := List.countP_le_length (p := fun i => decide (0 < remainderAt parts i))
      (l := remainderOrder parts)
    omega
  refine ⟨(hperm.nodup_iff.mpr List.nodup_range).sublist (List.take_sublist _ _),
    by rw [List.length_take, Nat.min_eq_left hlength], fun i hi => ⟨?_, hpos i hi⟩⟩
  exact List.mem_range.mp (hperm.mem_iff.mp (List.mem_of_mem_take hi))

/-- The parts once the places are raised: each keeps its file and stays below its lines, and together
they are what is busy. -/
theorem raised_parts (hsum : (files.map (·.2)).sum = counted) (hbusy : busy < counted) :
    let parts : List SharePart := files.map fun file =>
      { id := file.1, whole := file.2 * busy / counted, remainder := file.2 * busy % counted }
    let raised := (remainderOrder parts).take (busy - (parts.map (·.whole)).sum)
    let last := raised.foldl (fun parts index => parts.modify index SharePart.raise) parts
    (parts.map (·.whole)).sum ≤ busy ∧
      List.Forall₂ (fun part file => part.id = file.1 ∧ part.whole ≤ file.2) last files ∧
      (last.map (·.whole)).sum = busy := by
  intro parts raised last
  have hpos : 0 < counted := Nat.zero_lt_of_lt hbusy
  have hwholes : parts.map (·.whole) = (files.map (·.2)).map (· * busy / counted) := by
    rw [List.map_map, List.map_map]
    rfl
  have hgiven : (parts.map (·.whole)).sum ≤ busy := hwholes ▸ Apportion.sum_wholes_le hsum hpos
  have hleft : busy - (parts.map (·.whole)).sum ≤ parts.countP fun part => 0 < part.remainder := by
    have h := Apportion.left_le_countP busy hsum hpos
    rw [← hwholes, List.countP_map] at h
    rw [List.countP_map]
    exact h
  obtain ⟨hnodup, hlength, hraised⟩ := raised_spec hleft
  refine ⟨hgiven, ?_, ?_⟩
  · refine List.forall₂_iff_get.mpr ⟨?_, fun i hlast hfile => ?_⟩
    · rw [Apportion.foldl_modify_length, List.length_map]
    · have hpart : parts[i]? = some {
          id := files[i].1, whole := files[i].2 * busy / counted
          remainder := files[i].2 * busy % counted } := by
        rw [List.getElem?_map, List.getElem?_eq_getElem hfile]
        rfl
      have hget := Apportion.foldl_modify_getElem? SharePart.raise hnodup parts i
      rw [hpart, List.getElem?_eq_getElem hlast] at hget
      rw [List.get_eq_getElem, List.get_eq_getElem]
      split at hget
      next hmem =>
        have hremainder := (hraised i hmem).2
        rw [remainderAt, hpart] at hremainder
        rw [Option.some.inj hget]
        exact ⟨rfl, Apportion.whole_lt hbusy hremainder⟩
      next =>
        rw [Option.some.inj hget]
        exact ⟨rfl, Apportion.whole_le hbusy _⟩
  · have hsize : (last.map (·.whole)).sum = (parts.map (·.whole)).sum + raised.length :=
      Apportion.foldl_modify_sum SharePart.whole (fun _ => rfl) raised parts fun i hi =>
        (hraised i hi).1
    rw [hsize, hlength]
    exact Nat.add_sub_cancel' hgiven

/-- Busy connections are shared out exactly: in order, none above its own lines, and together the
lines that were counted or, where fewer connections are busy, exactly those. -/
theorem shares_exact (hproduct : ∀ file ∈ files, file.2 * busy ≤ u64Max)
    (hsum : (files.map (·.2)).sum ≤ u64Max) :
    List.Forall₂ (fun share file => share.1 = file.1 ∧ share.2 ≤ file.2) (shares files busy)
        files ∧
      ((shares files busy).map (·.2)).sum =
        if (files.map (·.2)).sum ≤ busy then (files.map (·.2)).sum else busy := by
  have hcounted : wrappingSum (files.map (·.2)) = (files.map (·.2)).sum :=
    Nat.mod_eq_of_lt (Nat.lt_of_le_of_lt hsum (by decide))
  unfold shares
  rw [hcounted]
  dsimp only
  split
  next hle =>
    have hcount (file : DownloadId × Nat) (hfile : file ∈ files) :
        (file.1, countOf file.2) = file := by
      have hbusy : file.2 ≤ busy :=
        Nat.le_trans (List.le_sum_of_mem (List.mem_map_of_mem hfile)) hle
      rw [countOf_eq (Nat.le_refl _) hbusy (hproduct file hfile)]
    have heq : files.map (fun file => (file.1, countOf file.2)) = files :=
      (List.map_congr_left hcount).trans (List.map_id _)
    rw [heq]
    exact ⟨List.forall₂_same.mpr fun _ _ => ⟨rfl, Nat.le_refl _⟩, rfl⟩
  next hlt =>
    obtain ⟨hgiven, hparts, htotal⟩ := raised_parts rfl (Nat.lt_of_not_le hlt)
    rw [wholeParts_eq hproduct]
    rw [show wrappingSum _ = _ from
      Nat.mod_eq_of_lt (Nat.lt_of_le_of_lt hgiven (by unfold u64Max at hsum; omega))]
    generalize List.foldl _ _ _ = last at hparts htotal ⊢
    have hcount (part : SharePart) (hmem : part ∈ last) : part.count = (part.id, part.whole) := by
      obtain ⟨hlength, hget⟩ := List.forall₂_iff_get.mp hparts
      obtain ⟨i, rfl⟩ := List.mem_iff_get.mp hmem
      have hfile : i.val < files.length := Nat.lt_of_lt_of_eq i.isLt hlength
      have hbusy : (last.get i).whole ≤ busy :=
        htotal ▸ List.le_sum_of_mem (List.mem_map_of_mem hmem)
      rw [SharePart.count,
        countOf_eq (hget i i.isLt hfile).2 hbusy (hproduct _ (List.get_mem files ⟨i, hfile⟩))]
    rw [List.map_congr_left hcount, List.forall₂_map_left_iff, List.map_map]
    exact ⟨hparts, htotal⟩

/-- Five lines of three files over three busy connections. -/
theorem shares_exact_three :
    let files : List (DownloadId × Nat) := [(1, 2), (2, 2), (3, 1)]
    List.Forall₂ (fun share file => share.1 = file.1 ∧ share.2 ≤ file.2) (shares files 3) files ∧
      ((shares files 3).map (·.2)).sum = 3 :=
  shares_exact (by decide) (by decide)

/-- Two counts whose sum is a whole word come to nothing when they are added up, so that both files
get all the connections a `u32` holds, though one is busy. -/
theorem shares_of_wrapped_sum :
    let files : List (DownloadId × Nat) := [(1, 2 ^ 63), (2, 2 ^ 63)]
    (∀ file ∈ files, file.2 * 1 ≤ u64Max) ∧ shares files 1 = [(1, u32Max), (2, u32Max)] ∧
      ((shares files 1).map (·.2)).sum ≠ 1 := by
  decide +kernel

end RDownloader
