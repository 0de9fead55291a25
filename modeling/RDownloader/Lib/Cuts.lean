import Mathlib.Data.List.Basic
import Mathlib.Data.List.Count

/-!
# Offsets along strictly ascending cuts

A strictly ascending list of offsets cuts a line of bytes into chunks: chunk `i` ends at the `i`-th
cut and starts at the one before it, the first at zero. `passed` counts the cuts at or below an
offset, which is the index of the chunk the offset lies in; the chunks that end between two offsets
are the indices between the two counts.
-/

namespace Cuts

variable {cuts : List Nat} {p q : Nat}

def Ascending (cuts : List Nat) : Prop := cuts.Pairwise (· < ·)

/-- How many cuts lie at or below `q`. -/
def passed (cuts : List Nat) (q : Nat) : Nat := cuts.countP (· ≤ q)

/-- Where chunk `i` starts. -/
def start (cuts : List Nat) : Nat → Nat
  | 0 => 0
  | i + 1 => cuts.getD i 0

theorem passed_le_length (cuts : List Nat) (q : Nat) : passed cuts q ≤ cuts.length :=
  List.countP_le_length

theorem passed_mono (h : p ≤ q) : passed cuts p ≤ passed cuts q :=
  List.countP_mono_left fun _ _ hle => by simp only [decide_eq_true_eq] at hle ⊢; omega

/-- The cuts at or below an offset are the first ones. -/
theorem lt_passed_iff (h : Ascending cuts) {i : Nat} (hi : i < cuts.length) :
    i < passed cuts q ↔ cuts[i] ≤ q := by
  induction cuts generalizing i with
  | nil => cases hi
  | cons c cuts ih =>
    obtain ⟨hhead, htail⟩ := List.pairwise_cons.mp h
    by_cases hc : c ≤ q
    · rw [passed, List.countP_cons_of_pos (by simpa using hc)]
      cases i with
      | zero => simp [hc]
      | succ i =>
        have := ih htail (Nat.lt_of_succ_lt_succ hi)
        simpa [passed] using this
    · have hnone : passed (c :: cuts) q = 0 := by
        refine List.countP_eq_zero.mpr fun x hx => ?_
        rcases List.mem_cons.mp hx with rfl | hx
        · simpa using hc
        · have := hhead x hx
          simp only [decide_eq_true_eq]
          omega
      rw [hnone]
      refine iff_of_false (Nat.not_lt_zero i) fun hle => ?_
      cases i with
      | zero => exact hc hle
      | succ i =>
        have := hhead _ (List.getElem_mem (Nat.lt_of_succ_lt_succ hi))
        simp only [List.getElem_cons_succ] at hle
        omega

theorem start_succ {i : Nat} (hi : i < cuts.length) : start cuts (i + 1) = cuts[i] := by
  simp [start, List.getD, hi]

/-- The chunks up to the one an offset lies in start at or below it. -/
theorem start_le (h : Ascending cuts) {i : Nat} (hi : i ≤ passed cuts q) : start cuts i ≤ q := by
  cases i with
  | zero => exact Nat.zero_le q
  | succ i =>
    have hlt : i < cuts.length := Nat.lt_of_lt_of_le hi (passed_le_length ..)
    rw [start_succ hlt]
    exact (lt_passed_iff h hlt).mp hi

theorem start_passed_le (h : Ascending cuts) (q : Nat) : start cuts (passed cuts q) ≤ q :=
  start_le h (Nat.le_refl _)

/-- The chunk an offset lies in ends above it. -/
theorem lt_end_of_passed (h : Ascending cuts) (hi : passed cuts q < cuts.length) :
    q < cuts[passed cuts q] := by
  have := (lt_passed_iff h hi (q := q)).not.mp (Nat.lt_irrefl _)
  omega

theorem passed_start (h : Ascending cuts) (hpos : ∀ c ∈ cuts, 0 < c) {i : Nat}
    (hi : i ≤ cuts.length) : passed cuts (start cuts i) = i := by
  cases i with
  | zero =>
    refine List.countP_eq_zero.mpr fun c hc => ?_
    simpa [start] using Nat.ne_of_gt (hpos c hc)
  | succ i =>
    rw [start_succ hi]
    have hlo : i < passed cuts cuts[i] := (lt_passed_iff h hi).mpr (Nat.le_refl _)
    refine Nat.le_antisymm (Nat.le_of_not_lt fun hlt => ?_) hlo
    have hlt' : i + 1 < cuts.length := Nat.lt_of_lt_of_le hlt (passed_le_length ..)
    have := (lt_passed_iff h hlt').mp hlt
    have := List.pairwise_iff_getElem.mp h i (i + 1) hi hlt' (Nat.lt_succ_self i)
    omega

theorem passed_eq (h : Ascending cuts) {i : Nat} (hlo : start cuts i ≤ q)
    (hhi : ∀ hi : i < cuts.length, q < cuts[i]) (hi : i ≤ cuts.length) : passed cuts q = i := by
  refine Nat.le_antisymm (Nat.le_of_not_lt fun hlt => ?_) (Nat.le_of_not_lt fun hlt => ?_)
  · have hi' : i < cuts.length := Nat.lt_of_lt_of_le hlt (passed_le_length ..)
    have := (lt_passed_iff h hi').mp hlt
    have := hhi hi'
    omega
  · cases i with
    | zero => cases hlt
    | succ i =>
      rw [start_succ hi] at hlo
      have := (lt_passed_iff h hi).mpr hlo
      omega

/-- An offset that is a chunk's start is the start of the chunk it lies in. -/
theorem start_passed_of_mem (h : Ascending cuts) (hq : q ∈ cuts) :
    start cuts (passed cuts q) = q := by
  obtain ⟨i, hi, rfl⟩ := List.getElem_of_mem hq
  have hlo : i < passed cuts cuts[i] := (lt_passed_iff h hi).mpr (Nat.le_refl _)
  have hle := start_passed_le h cuts[i]
  refine Nat.le_antisymm hle ?_
  cases hj : passed cuts cuts[i] with
  | zero => omega
  | succ j =>
    have hjl : j < cuts.length := by have := passed_le_length cuts cuts[i]; omega
    rw [start_succ hjl]
    rcases Nat.lt_or_ge i j with hlt | hge
    · exact Nat.le_of_lt (List.pairwise_iff_getElem.mp h i j hi hjl hlt)
    · obtain rfl : i = j := by omega
      exact Nat.le_refl _

/-! ## Slices of a list -/

variable {α : Type*} {xs : List α} {a b c : Nat}

/-- The elements of `xs` from offset `a` up to offset `b`. -/
def slice (xs : List α) (a b : Nat) : List α := (xs.drop a).take (b - a)

@[simp] theorem slice_self (xs : List α) (a : Nat) : slice xs a a = [] := by
  rw [slice, Nat.sub_self, List.take_zero]

theorem length_slice (h : b ≤ xs.length) : (slice xs a b).length = b - a := by
  rw [slice, List.length_take, List.length_drop]; omega

theorem take_slice (h : a + c ≤ b) : (slice xs a b).take c = slice xs a (a + c) := by
  rw [slice, slice, List.take_take]; congr 1; omega

theorem drop_slice (xs : List α) (a b c : Nat) : (slice xs a b).drop c = slice xs (a + c) b := by
  rw [slice, slice, List.drop_take, List.drop_drop]; congr 1; omega

theorem slice_append (hab : a ≤ b) (hbc : b ≤ c) : slice xs a b ++ slice xs b c = slice xs a c := by
  have hb : a + (b - a) = b := by omega
  calc slice xs a b ++ slice xs b c
      = (slice xs a c).take (b - a) ++ (slice xs a c).drop (b - a) := by
        rw [take_slice (by omega), drop_slice, hb]
    _ = slice xs a c := List.take_append_drop ..

end Cuts
