import Mathlib.Algebra.GroupWithZero.Nat

/-!
# Sharing out by the largest remainder

Weights are scaled to a number of seats. Everybody gets the whole part of its share, and the seats
left over go to the largest remainders: they are no more than the remainders that are not zero.
-/

namespace Apportion

/-! ## Whole parts and remainders -/

/-- Weights with their whole parts and remainders. -/
theorem wholes_add_remainders (weights : List Nat) (seats total : Nat) :
    total * (weights.map fun weight => weight * seats / total).sum +
        (weights.map fun weight => weight * seats % total).sum = weights.sum * seats := by
  induction weights with
  | nil => simp
  | cons weight weights ih =>
    have hsplit := Nat.div_add_mod (weight * seats) total
    simp only [List.map_cons, List.sum_cons, Nat.mul_add, Nat.add_mul]
    omega

theorem sum_remainders_le (weights : List Nat) (seats : Nat) {total : Nat} (hpos : 0 < total) :
    (weights.map fun weight => weight * seats % total).sum ≤
      total * weights.countP fun weight => 0 < weight * seats % total := by
  induction weights with
  | nil => simp
  | cons weight weights ih =>
    have hlt := Nat.mod_lt (weight * seats) hpos
    rw [List.map_cons, List.sum_cons, List.countP_cons, Nat.mul_add]
    split
    · omega
    next hzero =>
      have : weight * seats % total = 0 := by simpa using hzero
      omega

section
variable {weights : List Nat} {seats total : Nat}

theorem sum_wholes_le (hsum : weights.sum = total) (hpos : 0 < total) :
    (weights.map fun weight => weight * seats / total).sum ≤ seats := by
  have h := wholes_add_remainders weights seats total
  rw [hsum] at h
  exact Nat.le_of_mul_le_mul_left (Nat.le_of_add_right_le (Nat.le_of_eq h)) hpos

variable (seats) in
/-- There is a remainder for every seat left over. -/
theorem left_le_countP (hsum : weights.sum = total) (hpos : 0 < total) :
    seats - (weights.map fun weight => weight * seats / total).sum ≤
      weights.countP fun weight => 0 < weight * seats % total := by
  have h := wholes_add_remainders weights seats total
  have hremainders := sum_remainders_le weights seats hpos
  rw [hsum] at h
  refine Nat.le_of_mul_le_mul_left ?_ hpos
  rw [Nat.mul_sub]
  omega

/-- A whole part with a remainder leaves room below its weight. -/
theorem whole_lt (hseats : seats < total) {weight : Nat} (h : 0 < weight * seats % total) :
    weight * seats / total < weight := by
  have hpos : 0 < weight := Nat.pos_of_ne_zero fun hzero => by simp [hzero] at h
  exact Nat.div_lt_of_lt_mul
    (Nat.mul_comm total weight ▸ Nat.mul_lt_mul_of_pos_left hseats hpos)

theorem whole_le (hseats : seats < total) (weight : Nat) : weight * seats / total ≤ weight :=
  Nat.div_le_of_le_mul (Nat.mul_comm total weight ▸ Nat.mul_le_mul_left _ (Nat.le_of_lt hseats))

end

/-! ## The seats left over -/

/-- Among keys that go down, the first few are not zero if there are as many that are not. -/
theorem pos_of_mem_take {α : Type u} {key : α → Nat} {items : List α} {k : Nat}
    (hdown : items.Pairwise fun a b => key b ≤ key a)
    (hk : k ≤ items.countP fun item => 0 < key item) : ∀ item ∈ items.take k, 0 < key item := by
  induction items generalizing k with
  | nil => simp
  | cons first items ih =>
    cases k with
    | zero => simp
    | succ k =>
      obtain ⟨hfirst, hrest⟩ := List.pairwise_cons.mp hdown
      by_cases hpos : 0 < key first
      · rw [List.countP_cons, if_pos (decide_eq_true hpos)] at hk
        rw [List.take_succ_cons, List.forall_mem_cons]
        exact ⟨hpos, ih hrest (Nat.le_of_succ_le_succ hk)⟩
      · -- the others are not larger, so none is counted
        have hnone : (first :: items).countP (fun item => 0 < key item) = 0 := by
          refine List.countP_eq_zero.mpr fun item hitem => ?_
          rcases List.mem_cons.mp hitem with rfl | hitem
          · simpa using hpos
          · have := hfirst item hitem
            simp only [decide_eq_true_eq]
            omega
        omega

section
variable {α : Type u} (f : α → α)

/-- Each of the places is changed once. -/
theorem foldl_modify_getElem? {places : List Nat} (hnodup : places.Nodup) (items : List α)
    (i : Nat) : (places.foldl (fun items place => items.modify place f) items)[i]? =
      if i ∈ places then items[i]?.map f else items[i]? := by
  induction places generalizing items with
  | nil => simp
  | cons place places ih =>
    obtain ⟨hnew, hnodup⟩ := List.nodup_cons.mp hnodup
    rw [List.foldl_cons, ih hnodup, List.getElem?_modify]
    by_cases hi : place = i
    · subst hi
      simp [hnew]
    · have hne : i ≠ place := Ne.symm hi
      simp [hi, hne]

theorem foldl_modify_length (places : List Nat) (items : List α) :
    (places.foldl (fun items place => items.modify place f) items).length = items.length := by
  induction places generalizing items with
  | nil => rfl
  | cons place places ih => rw [List.foldl_cons, ih, List.length_modify]

variable {f}

/-- What each change adds once is added as often as there are places. -/
theorem foldl_modify_sum (size : α → Nat) (hsize : ∀ item, size (f item) = size item + 1)
    (places : List Nat) (items : List α) (hplaces : ∀ place ∈ places, place < items.length) :
    ((places.foldl (fun items place => items.modify place f) items).map size).sum =
      (items.map size).sum + places.length := by
  have hone (items : List α) (place : Nat) (h : place < items.length) :
      ((items.modify place f).map size).sum = (items.map size).sum + 1 := by
    induction items generalizing place with
    | nil => cases h
    | cons item items ih =>
      cases place with
      | zero =>
        simp [hsize]
        omega
      | succ place =>
        have := ih place (Nat.lt_of_succ_lt_succ h)
        simp only [List.modify_succ_cons, List.map_cons, List.sum_cons]
        omega
  induction places generalizing items with
  | nil => rfl
  | cons place places ih =>
    obtain ⟨hplace, hrest⟩ := List.forall_mem_cons.mp hplaces
    rw [List.foldl_cons, ih _ (by simpa using hrest), hone items place hplace, List.length_cons]
    omega

end

end Apportion
