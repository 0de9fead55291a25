import Mathlib.Order.Lattice
import Mathlib.Data.List.Nodup

/-!
# Counting in lists

What one changed entry does to a count, how many places the entries of a list can take up, and who
is left without an answer when the others have taken their own.
-/

namespace Counting

variable {α : Type u} {β : Type v}

theorem getElem?_set_cases {l : List α} {i j : Nat} (h : (l.set i b)[j]? = some a) :
    j = i ∧ a = b ∨ j ≠ i ∧ l[j]? = some a := by
  rcases eq_or_ne j i with rfl | hne
  · rw [List.getElem?_set_self'] at h
    obtain ⟨_, -, rfl⟩ := Option.map_eq_some_iff.mp h
    exact .inl ⟨rfl, rfl⟩
  · rw [List.getElem?_set_ne hne.symm] at h
    exact .inr ⟨hne, h⟩

theorem countP_set_add {l : List α} (h : l[i]? = some a) (p : α → Bool) (b : α) :
    (l.set i b).countP p + (if p a then 1 else 0) = l.countP p + if p b then 1 else 0 := by
  induction l generalizing i with
  | nil => cases h
  | cons c l ih =>
    cases i with
    | zero =>
      obtain rfl : c = a := by simpa using h
      simp [List.countP_cons]
      omega
    | succ i =>
      have := ih (i := i) (by simpa using h)
      simp [List.countP_cons]
      omega

/-- Where one entry at most satisfies the predicate, two that do are the same. -/
theorem eq_of_countP_le_one {l : List α} {p : α → Bool} {i j : Nat} (hcount : l.countP p ≤ 1)
    (hi : l[i]? = some a) (hj : l[j]? = some b) (ha : p a) (hb : p b) : i = j := by
  induction l generalizing i j with
  | nil => cases hi
  | cons c l ih =>
    rw [List.countP_cons] at hcount
    cases i with
    | zero =>
      cases j with
      | zero => rfl
      | succ j =>
        obtain rfl : c = a := by simpa using hi
        have : 0 < l.countP p :=
          List.countP_pos_iff.mpr ⟨b, List.mem_of_getElem? (by simpa using hj), hb⟩
        rw [if_pos ha] at hcount
        omega
    | succ i =>
      cases j with
      | zero =>
        obtain rfl : c = b := by simpa using hj
        have : 0 < l.countP p :=
          List.countP_pos_iff.mpr ⟨a, List.mem_of_getElem? (by simpa using hi), ha⟩
        rw [if_pos hb] at hcount
        omega
      | succ j =>
        have hsame : i = j := ih (by omega) (by simpa using hi) (by simpa using hj)
        rw [hsame]

theorem countP_or_le (p q : α → Bool) (l : List α) :
    l.countP (fun a => p a || q a) ≤ l.countP p + l.countP q := by
  induction l with
  | nil => simp
  | cons a l ih =>
    simp only [List.countP_cons]
    cases p a <;> cases q a <;> simp <;> omega

/-- Each entry takes up at most one place, so no more places are taken than entries take one. -/
theorem countP_any_le [DecidableEq α] {places : List α} (h : places.Nodup) (f : β → Option α)
    (l : List β) : places.countP (fun a => l.any fun b => f b = some a) ≤ l.countP (f · |>.isSome) := by
  induction l with
  | nil => simp
  | cons b l ih =>
    have hfirst : places.countP (fun a => decide (f b = some a)) ≤ if (f b).isSome then 1 else 0 := by
      cases hb : f b with
      | none => simp
      | some a =>
        have hcount : places.count a ≤ 1 := List.nodup_iff_count_le_one.mp h a
        simpa [List.count, eq_comm, beq_eq_decide] using hcount
    simp only [List.any_cons, List.countP_cons]
    have := countP_or_le (fun a => decide (f b = some a)) (fun a => l.any fun b => f b = some a) places
    omega

/-- As many entries satisfy the narrower predicate as the wider one: they are the same. -/
theorem of_countP_eq {p q : α → Bool} {l : List α} (hpq : ∀ a ∈ l, p a → q a)
    (hcount : l.countP p = l.countP q) : ∀ a ∈ l, q a → p a := by
  induction l with
  | nil => simp
  | cons b l ih =>
    simp only [List.countP_cons] at hcount
    have hle : l.countP p ≤ l.countP q :=
      List.countP_mono_left fun a ha => hpq a (List.mem_cons_of_mem _ ha)
    have hb := hpq b (List.mem_cons_self ..)
    intro a ha hq
    rcases List.mem_cons.mp ha with rfl | ha
    · by_contra hp
      simp [hq, hp] at hcount
      omega
    · refine ih (fun a ha => hpq a (List.mem_cons_of_mem _ ha)) ?_ a ha hq
      split at hcount <;> split at hcount <;> first | omega | simp_all

/-- An entry that satisfies the wider predicate alone makes the counts differ. -/
theorem countP_lt {p q : α → Bool} {l : List α} (hpq : ∀ a ∈ l, p a → q a) (ha : a ∈ l) (hq : q a)
    (hp : ¬p a) : l.countP p < l.countP q := by
  apply Nat.lt_of_le_of_ne (List.countP_mono_left hpq)
  intro hcount
  exact hp (of_countP_eq hpq hcount a ha hq)

/-- Everybody has asked for something and been given an answer to what somebody asked for. Whoever
took an answer that was no refusal had asked for just that. Then what somebody asked for who took a
refusal has been refused. -/
theorem exists_refused [DecidableEq γ] {l : List α} {asked given : α → γ} (refused : α → Bool)
    (hperm : (l.map asked).Perm (l.map given)) (hown : ∀ a ∈ l, refused a ∨ given a = asked a)
    (ha : a ∈ l) (hrefused : refused a) : ∃ b ∈ l, refused b ∧ given b = asked a := by
  by_contra hnone
  have hnarrow : ∀ b ∈ l, decide (given b = asked a) → decide (asked b = asked a) := by
    intro b hb hgiven
    have hgiven := of_decide_eq_true hgiven
    rcases hown b hb with hr | hr
    · exact absurd ⟨b, hb, hr, hgiven⟩ hnone
    · exact decide_eq_true (hr ▸ hgiven)
  have hcount : l.countP (fun b => decide (given b = asked a)) =
      l.countP fun b => decide (asked b = asked a) := by
    have := hperm.countP_eq (fun c => decide (c = asked a))
    simpa [List.countP_map, Function.comp_def] using this.symm
  have hgiven := of_countP_eq hnarrow hcount a ha (decide_eq_true rfl)
  exact hnone ⟨a, ha, hrefused, of_decide_eq_true hgiven⟩

end Counting

/-!
## Counting the increases of a reading

Two ways to count how far a reading has moved. `increases` adds every rise between consecutive
readings, falls counting nothing. `excess` keeps a mark that only moves forward and adds what a
reading shows above it. They agree exactly when the reading never rises below its mark
(`excess_eq_increases_iff`).
-/

namespace Odometer

/-- The sum of the rises between consecutive readings, the first one taken against `prev`. -/
def increases (prev : Nat) : List Nat → Nat
  | [] => 0
  | t :: ts => (t - prev) + increases t ts

/-- What a reader counts whose mark moves forward only. -/
def excess (mark : Nat) : List Nat → Nat
  | [] => 0
  | t :: ts => (t - mark) + excess (max mark t) ts

/-- Whenever the reading rises, it rises from its mark. -/
def RisesFromMark (mark prev : Nat) : List Nat → Prop
  | [] => True
  | t :: ts => (prev < t → mark = prev) ∧ RisesFromMark (max mark t) t ts

instance RisesFromMark.decidable : ∀ mark prev ts, Decidable (RisesFromMark mark prev ts)
  | _, _, [] => isTrue trivial
  | mark, prev, t :: ts =>
    have := RisesFromMark.decidable (max mark t) t ts
    inferInstanceAs (Decidable ((prev < t → mark = prev) ∧ _))

theorem excess_le_increases (h : prev ≤ mark) : excess mark ts ≤ increases prev ts := by
  induction ts generalizing mark prev with
  | nil => exact Nat.le_refl 0
  | cons t ts ih => exact Nat.add_le_add (by omega) (ih (Nat.le_max_right mark t))

/-- The forward-only mark loses nothing exactly when every rise starts at the mark. -/
theorem excess_eq_increases_iff (h : prev ≤ mark) :
    excess mark ts = increases prev ts ↔ RisesFromMark mark prev ts := by
  induction ts generalizing mark prev with
  | nil => simp [excess, increases, RisesFromMark]
  | cons t ts ih =>
    have hle : t - mark ≤ t - prev := by omega
    have hrest : excess (max mark t) ts ≤ increases t ts :=
      excess_le_increases (Nat.le_max_right mark t)
    have hhead : t - mark = t - prev ↔ (prev < t → mark = prev) := by omega
    simp only [excess, increases, RisesFromMark, ← hhead, ← ih (Nat.le_max_right mark t)]
    omega

end Odometer
