import Mathlib.Algebra.GroupWithZero.Nat

/-!
# Covering a gap from a list of sizes

Items are taken from the front until their sizes cover a gap. In a list that goes up, an item of such
a choice can be spared exactly when its first one can.
-/

namespace Covering

variable {α : Type u} (size : α → Nat)

def total (items : List α) : Nat := (items.map size).sum

/-- The items from the front, as long as what was covered before them falls short of the gap. -/
def untilCovered (gap : Nat) : Nat → List α → List α
  | _, [] => []
  | covered, item :: items =>
    if gap ≤ covered then [] else item :: untilCovered gap (covered + size item) items

/-- Without any one of the items, the rest falls short of the gap. -/
def NoneSpare (gap : Nat) (items : List α) : Prop :=
  ∀ before item after, items = before ++ item :: after → total size (before ++ after) < gap

/-- Where the first sizes fall short, the next one makes none of them spare: the sizes with it but
without the first fall short as well. -/
def Thrifty (gap : Nat) (sizes : List Nat) : Prop :=
  ∀ k < sizes.length, (sizes.take k).sum < gap → (sizes.take (k + 1)).tail.sum < gap

instance (gap : Nat) (sizes : List Nat) : Decidable (Thrifty gap sizes) :=
  inferInstanceAs (Decidable (∀ k < sizes.length, _))

variable {size} {gap covered : Nat} {items : List α}

@[simp] theorem total_nil : total size [] = 0 := rfl

@[simp] theorem total_cons (item : α) (items : List α) :
    total size (item :: items) = size item + total size items := rfl

@[simp] theorem total_append (a b : List α) :
    total size (a ++ b) = total size a + total size b := by
  simp [total]

theorem untilCovered_prefix (gap covered : Nat) (items : List α) :
    untilCovered size gap covered items <+: items := by
  induction items generalizing covered with
  | nil => exact List.prefix_rfl
  | cons item items ih =>
    rw [untilCovered]
    split
    · exact List.nil_prefix
    · exact List.cons_prefix_cons.mpr ⟨rfl, ih _⟩

/-- Enough is taken where there is enough. -/
theorem le_untilCovered (h : gap ≤ covered + total size items) :
    gap ≤ covered + total size (untilCovered size gap covered items) := by
  induction items generalizing covered with
  | nil => exact h
  | cons item items ih =>
    rw [untilCovered]
    split
    next hle => exact hle
    next =>
      rw [total_cons, ← Nat.add_assoc] at h ⊢
      exact ih h

/-- Nothing is taken once the gap is covered. -/
theorem lt_of_take_untilCovered {k : Nat}
    (h : k < (untilCovered size gap covered items).length) :
    covered + total size ((untilCovered size gap covered items).take k) < gap := by
  induction items generalizing covered k with
  | nil => cases h
  | cons item items ih =>
    rw [untilCovered] at h ⊢
    split at h
    next => cases h
    next hlt =>
      rw [if_neg hlt]
      cases k with
      | zero => exact Nat.lt_of_not_le hlt
      | succ k =>
        rw [List.take_succ_cons, total_cons, ← Nat.add_assoc]
        exact ih (Nat.lt_of_succ_lt_succ h)

theorem untilCovered_eq_nil_iff :
    untilCovered size gap covered items = [] ↔ items = [] ∨ gap ≤ covered := by
  cases items with
  | nil => simp [untilCovered]
  | cons item items => simp [untilCovered]

/-! ## What can be spared -/

theorem sum_take_mono {k m : Nat} (h : k ≤ m) (sizes : List Nat) :
    (sizes.take k).sum ≤ (sizes.take m).sum := by
  have hsplit := List.take_append_drop k (sizes.take m)
  rw [List.take_take, Nat.min_eq_left h] at hsplit
  rw [← hsplit, List.sum_append]
  exact Nat.le_add_right _ _

theorem sum_tail_take_mono {k m : Nat} (h : k ≤ m) (sizes : List Nat) :
    (sizes.take k).tail.sum ≤ (sizes.take m).tail.sum := by
  cases sizes with
  | nil => simp
  | cons size sizes =>
    cases k with
    | zero => exact Nat.zero_le _
    | succ k =>
      cases m with
      | zero => omega
      | succ m => exact sum_take_mono (Nat.le_of_succ_le_succ h) sizes

/-- Sizes that all together fall short are thrifty. -/
theorem Thrifty.of_sum_lt {sizes : List Nat} (h : sizes.sum < gap) : Thrifty gap sizes := by
  intro k _ _
  cases sizes with
  | nil => exact h
  | cons size sizes =>
    have hle := sum_take_mono (Nat.le_max_left k sizes.length) sizes
    rw [List.take_of_length_le (Nat.le_max_right k sizes.length)] at hle
    rw [List.take_succ_cons, List.tail_cons]
    rw [List.sum_cons] at h
    omega

/-- In a list that goes up, the first item is the one to spare. -/
theorem noneSpare_cons_iff {item : α} (h : (item :: items).Pairwise fun a b => size a ≤ size b) :
    NoneSpare size gap (item :: items) ↔ total size items < gap := by
  constructor
  · intro hnone
    exact hnone [] item items rfl
  · intro hlt before other after heq
    have hle : size item ≤ size other := by
      cases before with
      | nil =>
        obtain ⟨rfl, -⟩ := List.cons.inj heq
        exact Nat.le_refl _
      | cons first before =>
        obtain ⟨rfl, rfl⟩ := List.cons.inj heq
        exact List.rel_of_pairwise_cons h (by simp)
    have htotal := congrArg (total size) heq
    simp only [total_cons, total_append] at htotal ⊢
    omega

/-- What is taken from a list that goes up holds nothing to spare exactly when the sizes are
thrifty. -/
theorem noneSpare_untilCovered_iff (h : items.Pairwise fun a b => size a ≤ size b)
    (hcovers : gap ≤ total size items) :
    NoneSpare size gap (untilCovered size gap 0 items) ↔ Thrifty gap (items.map size) := by
  have hprefix : untilCovered size gap 0 items <+: items := untilCovered_prefix gap 0 items
  have hcovered : gap ≤ total size (untilCovered size gap 0 items) := by
    have hle : gap ≤ 0 + total size (untilCovered size gap 0 items) :=
      le_untilCovered ((Nat.zero_add _).symm ▸ hcovers)
    omega
  have hshort {k : Nat} (hk : k < (untilCovered size gap 0 items).length) :
      total size ((untilCovered size gap 0 items).take k) < gap := by
    have := lt_of_take_untilCovered hk
    omega
  generalize untilCovered size gap 0 items = chosen at hprefix hcovered hshort
  have htake : chosen = items.take chosen.length := List.prefix_iff_eq_take.mp hprefix
  have hsizes (k : Nat) (hk : k ≤ chosen.length) :
      ((items.map size).take k).sum = total size (chosen.take k) := by
    rw [htake, List.take_take, Nat.min_eq_left hk, total, List.map_take]
  cases chosen with
  | nil =>
    -- a gap of nothing is covered before anything is taken
    have hzero : gap = 0 := Nat.le_zero.mp hcovered
    constructor
    · intro _ k _ hlt
      omega
    · intro _ before item after heq
      simp at heq
  | cons item rest =>
    have htail : total size rest = ((items.map size).take (rest.length + 1)).tail.sum := by
      rw [← List.map_take, ← List.length_cons (a := item), ← htake]
      rfl
    rw [noneSpare_cons_iff (h.sublist hprefix.sublist), htail]
    constructor
    · intro hlt k hk hgap
      have hle : k + 1 ≤ rest.length + 1 := by
        refine Nat.le_of_not_lt fun hgt => ?_
        have hmono := sum_take_mono (Nat.le_of_lt_succ hgt) (items.map size)
        have hall := hsizes (rest.length + 1) (Nat.le_refl _)
        rw [← List.length_cons (a := item), List.take_length] at hall
        rw [List.length_cons] at hall
        omega
      exact Nat.lt_of_le_of_lt (sum_tail_take_mono hle _) hlt
    · intro hthrifty
      refine hthrifty rest.length ?_ ?_
      · rw [List.length_map]
        exact hprefix.length_le
      · rw [hsizes _ (Nat.le_succ _)]
        exact hshort (Nat.lt_succ_self _)

end Covering
