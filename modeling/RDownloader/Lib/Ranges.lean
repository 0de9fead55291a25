import Mathlib.Data.List.Pairwise

/-!
# Ranges and the gaps between them

Ranges are inclusive at both ends and kept in ascending order, none meeting another. What they leave
out of a longer range is found in one pass; it is exactly the maximal runs that no range covers.
-/

abbrev Range := Nat × Nat

namespace Ranges

variable {ranges rest : List Range} {range gap r : Range} {low size n : Nat}

def Covers (ranges : List Range) (n : Nat) : Prop := ∃ range ∈ ranges, range.1 ≤ n ∧ n ≤ range.2

def Meets (a b : Range) : Prop := a.1 ≤ b.2 ∧ b.1 ≤ a.2

instance (a b : Range) : Decidable (Meets a b) := inferInstanceAs (Decidable (_ ∧ _))

/-- Ranges in ascending order, none of them empty and none meeting another. -/
structure Separate (ranges : List Range) : Prop where
  ordered : ranges.Pairwise fun a b => a.2 < b.1
  nonempty : ∀ range ∈ ranges, range.1 ≤ range.2

theorem separate_nil : Separate [] := ⟨.nil, nofun⟩

theorem Separate.sublist (h : Separate ranges) (hsub : rest.Sublist ranges) : Separate rest :=
  ⟨h.ordered.sublist hsub, fun r hr => h.nonempty r (hsub.subset hr)⟩

theorem Separate.tail (h : Separate (range :: rest)) : Separate rest :=
  h.sublist (List.sublist_cons_self _ _)

theorem Separate.head_lt (h : Separate (range :: rest)) : ∀ r ∈ rest, range.2 < r.1 :=
  (List.pairwise_cons.mp h.ordered).1

theorem covers_cons : Covers (range :: rest) n ↔ (range.1 ≤ n ∧ n ≤ range.2) ∨ Covers rest n := by
  simp [Covers]

/-- The last range ends last. -/
theorem Separate.le_getLast (h : Separate ranges) (hr : r ∈ ranges) :
    ∀ last ∈ ranges.getLast?, r.2 ≤ last.2 := by
  intro last hlast
  obtain ⟨before, rfl⟩ := List.getLast?_eq_some_iff.mp hlast
  obtain hr | hr := List.mem_append.mp hr
  · have hlt := (List.pairwise_append.mp h.ordered).2.2 r hr last (List.mem_singleton_self _)
    have hne := h.nonempty last (by simp)
    omega
  · obtain rfl := List.mem_singleton.mp hr
    exact Nat.le_refl _

/-! ## Putting a range between others -/

/-- A range behind all that begin before it and before all that begin after it. -/
def put (ranges : List Range) (range : Range) : List Range :=
  ranges.filter (·.1 < range.1) ++ range :: ranges.filter (range.1 < ·.1)

theorem mem_put (h : Separate ranges) (hne : range.1 ≤ range.2)
    (hfree : ∀ r ∈ ranges, ¬ Meets r range) : r ∈ put ranges range ↔ r ∈ ranges ∨ r = range := by
  simp only [put, List.mem_append, List.mem_cons, List.mem_filter, decide_eq_true_eq]
  constructor
  · rintro (hr | rfl | hr)
    · exact .inl hr.1
    · exact .inr rfl
    · exact .inl hr.1
  · rintro (hr | rfl)
    · have hr' := h.nonempty r hr
      have hbegin : r.1 ≠ range.1 := fun heq => hfree r hr ⟨by omega, by omega⟩
      rcases Nat.lt_or_gt_of_ne hbegin with hlt | hgt
      · exact .inl ⟨hr, hlt⟩
      · exact .inr (.inr ⟨hr, hgt⟩)
    · exact .inr (.inl rfl)

theorem Separate.put (h : Separate ranges) (hne : range.1 ≤ range.2)
    (hfree : ∀ r ∈ ranges, ¬ Meets r range) : Separate (put ranges range) := by
  have hleft : ∀ r ∈ ranges.filter (·.1 < range.1), r.2 < range.1 := by
    intro r hr
    obtain ⟨hmem, hlt⟩ := List.mem_filter.mp hr
    have hlt' := of_decide_eq_true hlt
    exact Nat.lt_of_not_le fun hle => hfree r hmem ⟨by omega, hle⟩
  have hright : ∀ r ∈ ranges.filter (range.1 < ·.1), range.2 < r.1 := by
    intro r hr
    obtain ⟨hmem, hlt⟩ := List.mem_filter.mp hr
    have hlt' := of_decide_eq_true hlt
    have hr' := h.nonempty r hmem
    exact Nat.lt_of_not_le fun hle => hfree r hmem ⟨hle, by omega⟩
  refine ⟨List.pairwise_append.mpr ⟨h.ordered.sublist List.filter_sublist, List.pairwise_cons.mpr
    ⟨hright, h.ordered.sublist List.filter_sublist⟩, fun a ha b hb => ?_⟩, fun r hr => ?_⟩
  · have ha' := hleft a ha
    obtain rfl | hb := List.mem_cons.mp hb
    · exact ha'
    · have hb' := hright b hb
      omega
  · obtain hr | rfl := (mem_put h hne hfree).mp hr
    · exact h.nonempty r hr
    · exact hne

/-- A range meets no other one when it meets neither of its neighbours. -/
theorem free_iff_neighbours (h : Separate ranges) (hne : range.1 ≤ range.2) :
    (∀ r ∈ ranges, ¬ Meets r range) ↔
      (∀ r ∈ (ranges.filter (·.1 ≤ range.1)).getLast?, r.2 < range.1) ∧
        ∀ r ∈ ranges.find? (range.1 ≤ ·.1), range.2 < r.1 := by
  constructor
  · intro hfree
    refine ⟨fun r hr => ?_, fun r hr => ?_⟩
    · obtain ⟨hmem, hle⟩ := List.mem_filter.mp (List.mem_of_getLast? hr)
      have hle' := of_decide_eq_true hle
      exact Nat.lt_of_not_le fun hmeet => hfree r hmem ⟨by omega, hmeet⟩
    · have hmem := List.mem_of_find?_eq_some hr
      have hle := List.find?_some (Option.mem_def.mp hr)
      rw [decide_eq_true_eq] at hle
      have hr' := h.nonempty r hmem
      exact Nat.lt_of_not_le fun hmeet => hfree r hmem ⟨hmeet, by omega⟩
  · rintro ⟨hearlier, hlater⟩ r hr ⟨hmeet, hmeet'⟩
    have hr' := h.nonempty r hr
    by_cases hbegin : r.1 ≤ range.1
    · have hmem : r ∈ ranges.filter (·.1 ≤ range.1) :=
        List.mem_filter.mpr ⟨hr, decide_eq_true hbegin⟩
      cases hlast : (ranges.filter (·.1 ≤ range.1)).getLast? with
      | none =>
        rw [List.getLast?_eq_none_iff.mp hlast] at hmem
        cases hmem
      | some last =>
        have hle := (h.sublist List.filter_sublist).le_getLast hmem last hlast
        have hlt := hearlier last hlast
        omega
    · cases hfind : ranges.find? (range.1 ≤ ·.1) with
      | none => exact List.find?_eq_none.mp hfind r hr (decide_eq_true (by omega))
      | some first =>
        have hlt := hlater first hfind
        obtain ⟨-, before, after, rfl, hbefore⟩ := List.find?_eq_some_iff_append.mp hfind
        obtain hr | hr := List.mem_append.mp hr
        · have hno := hbefore r hr
          simp only [Bool.not_eq_true', decide_eq_false_iff_not] at hno
          omega
        · obtain rfl | hr := List.mem_cons.mp hr
          · omega
          · have hfirst := (List.pairwise_cons.mp (List.pairwise_append.mp h.ordered).2.1).1 r hr
            have hne' := h.nonempty first (by simp)
            omega

/-! ## Gaps -/

/-- What no range covers from `low` on up to `size`. -/
def gapsFrom (low : Nat) : List Range → Nat → List Range
  | [], size => if low ≤ size then [(low, size)] else []
  | range :: rest, size =>
    (if low < range.1 then [(low, range.1 - 1)] else []) ++ gapsFrom (range.2 + 1) rest size

/-- A longest run from `low` to `size` that no range covers. -/
structure IsGap (low : Nat) (ranges : List Range) (size : Nat) (gap : Range) : Prop where
  low_le : low ≤ gap.1
  nonempty : gap.1 ≤ gap.2
  le_size : gap.2 ≤ size
  free : ∀ n, gap.1 ≤ n → n ≤ gap.2 → ¬ Covers ranges n
  left : gap.1 = low ∨ Covers ranges (gap.1 - 1)
  right : gap.2 = size ∨ Covers ranges (gap.2 + 1)

theorem isGap_congr (h : ∀ n, Covers ranges n ↔ Covers rest n) :
    IsGap low ranges size gap ↔ IsGap low rest size gap := by
  constructor <;> intro hgap
  · exact ⟨hgap.low_le, hgap.nonempty, hgap.le_size, fun n hle hle' hcovers =>
      hgap.free n hle hle' ((h n).mpr hcovers), hgap.left.imp_right (h _).mp,
      hgap.right.imp_right (h _).mp⟩
  · exact ⟨hgap.low_le, hgap.nonempty, hgap.le_size, fun n hle hle' hcovers =>
      hgap.free n hle hle' ((h n).mp hcovers), hgap.left.imp_right (h _).mpr,
      hgap.right.imp_right (h _).mpr⟩

theorem isGap_nil : IsGap low [] size gap ↔ low ≤ size ∧ gap = (low, size) := by
  constructor
  · intro h
    obtain hleft | ⟨r, hr, -⟩ := h.left
    · obtain hright | ⟨r, hr, -⟩ := h.right
      · have hne := h.nonempty
        exact ⟨by omega, Prod.ext hleft hright⟩
      · cases hr
    · cases hr
  · rintro ⟨hle, rfl⟩
    exact ⟨Nat.le_refl _, hle, Nat.le_refl _, fun _ _ _ => nofun, .inl rfl, .inl rfl⟩

/-- A run that is not covered lies before the first range or behind it. -/
theorem isGap_cons (h : Separate (range :: rest)) (hlow : low ≤ range.1) (hsize : range.2 ≤ size) :
    IsGap low (range :: rest) size gap ↔
      (low < range.1 ∧ gap = (low, range.1 - 1)) ∨ IsGap (range.2 + 1) rest size gap := by
  have hne := h.nonempty range List.mem_cons_self
  have hrest : ∀ {n}, Covers rest n → range.2 < n := by
    rintro n ⟨r, hr, hle, -⟩
    have hlt := h.head_lt r hr
    omega
  constructor
  · intro hgap
    have hnonempty := hgap.nonempty
    have houtside : ∀ n, gap.1 ≤ n → n ≤ gap.2 → ¬ (range.1 ≤ n ∧ n ≤ range.2) :=
      fun n hle hle' hin => hgap.free n hle hle' (covers_cons.mpr (.inl hin))
    by_cases hbefore : gap.1 < range.1
    · have hend : gap.2 < range.1 :=
        Nat.lt_of_not_le fun hle => houtside range.1 (by omega) hle ⟨Nat.le_refl _, hne⟩
      have hleft : gap.1 = low := by
        obtain hleft | hcovers := hgap.left
        · exact hleft
        · obtain hin | hcovers := covers_cons.mp hcovers
          · omega
          · have hlt := hrest hcovers
            omega
      have hright : gap.2 = range.1 - 1 := by
        obtain hright | hcovers := hgap.right
        · omega
        · obtain hin | hcovers := covers_cons.mp hcovers
          · omega
          · have hlt := hrest hcovers
            omega
      have hlt := hgap.low_le
      exact .inl ⟨by omega, Prod.ext hleft hright⟩
    · have hbehind : range.2 < gap.1 :=
        Nat.lt_of_not_le fun hle => houtside gap.1 (Nat.le_refl _) hnonempty ⟨by omega, hle⟩
      refine .inr ⟨hbehind, hnonempty, hgap.le_size,
        fun n hle hle' hcovers => hgap.free n hle hle' (covers_cons.mpr (.inr hcovers)), ?_, ?_⟩
      · obtain hleft | hcovers := hgap.left
        · omega
        · obtain hin | hcovers := covers_cons.mp hcovers
          · exact .inl (by omega)
          · exact .inr hcovers
      · obtain hright | hcovers := hgap.right
        · exact .inl hright
        · obtain hin | hcovers := covers_cons.mp hcovers
          · omega
          · exact .inr hcovers
  · rintro (⟨hlt, rfl⟩ | hgap)
    · refine ⟨Nat.le_refl _, by dsimp only; omega, by dsimp only; omega, fun n hle hle' hcovers => ?_,
        .inl rfl, .inr (covers_cons.mpr (.inl ⟨by dsimp only; omega, by dsimp only; omega⟩))⟩
      dsimp only at hle hle'
      obtain hin | hcovers := covers_cons.mp hcovers
      · omega
      · have hlt := hrest hcovers
        omega
    · have hlow' := hgap.low_le
      refine ⟨by omega, hgap.nonempty, hgap.le_size, fun n hle hle' hcovers => ?_, ?_, ?_⟩
      · obtain hin | hcovers := covers_cons.mp hcovers
        · omega
        · exact hgap.free n hle hle' hcovers
      · obtain hleft | hcovers := hgap.left
        · exact .inr (covers_cons.mpr (.inl ⟨by omega, by omega⟩))
        · exact .inr (covers_cons.mpr (.inr hcovers))
      · obtain hright | hcovers := hgap.right
        · exact .inl hright
        · exact .inr (covers_cons.mpr (.inr hcovers))

theorem mem_gapsFrom (h : Separate ranges) (hlow : ∀ r ∈ ranges, low ≤ r.1)
    (hsize : ∀ r ∈ ranges, r.2 ≤ size) : gap ∈ gapsFrom low ranges size ↔ IsGap low ranges size gap := by
  induction ranges generalizing low with
  | nil =>
    rw [isGap_nil, gapsFrom]
    split
    · rw [List.mem_singleton, and_iff_right ‹_›]
    · exact ⟨nofun, fun hgap => absurd hgap.1 ‹_›⟩
  | cons range rest ih =>
    have hrest := ih h.tail (fun r hr => h.head_lt r hr)
      fun r hr => hsize r (List.mem_cons_of_mem _ hr)
    rw [isGap_cons h (hlow range List.mem_cons_self) (hsize range List.mem_cons_self), gapsFrom,
      List.mem_append, hrest]
    refine or_congr_left ?_
    split
    · rw [List.mem_singleton, and_iff_right ‹_›]
    · exact ⟨nofun, fun hgap => absurd hgap.1 ‹_›⟩

theorem gapsFrom_ge : ∀ gap ∈ gapsFrom low ranges size, (∀ r ∈ ranges, low ≤ r.1) →
    Separate ranges → low ≤ gap.1 := by
  intro gap hgap hlow h
  induction ranges generalizing low with
  | nil =>
    rw [gapsFrom] at hgap
    split at hgap
    · obtain rfl := List.mem_singleton.mp hgap
      exact Nat.le_refl _
    · cases hgap
  | cons range rest ih =>
    have hne := h.nonempty range List.mem_cons_self
    have hle := hlow range List.mem_cons_self
    obtain hgap | hgap := List.mem_append.mp hgap
    · split at hgap
      · obtain rfl := List.mem_singleton.mp hgap
        exact Nat.le_refl _
      · cases hgap
    · have hge := ih hgap (fun r hr => h.head_lt r hr) h.tail
      omega

/-- What no range covers lies in a gap. -/
theorem covers_or_gap (hlow : low ≤ n) (hsize : n ≤ size) :
    Covers ranges n ∨ Covers (gapsFrom low ranges size) n := by
  induction ranges generalizing low with
  | nil =>
    rw [gapsFrom, if_pos (Nat.le_trans hlow hsize)]
    exact .inr ⟨_, List.mem_singleton_self _, hlow, hsize⟩
  | cons range rest ih =>
    rcases Nat.lt_or_ge n range.1 with hlt | hge
    · refine .inr ⟨(low, range.1 - 1), ?_, hlow, Nat.le_sub_one_of_lt hlt⟩
      rw [gapsFrom, if_pos (Nat.lt_of_le_of_lt hlow hlt)]
      exact List.mem_append_left _ List.mem_cons_self
    · rcases Nat.lt_or_ge range.2 n with hlt | hle
      · obtain hcovers | ⟨gap, hgap, hin⟩ := ih (Nat.succ_le_of_lt hlt)
        · exact .inl (covers_cons.mpr (.inr hcovers))
        · exact .inr ⟨gap, List.mem_append_right _ hgap, hin⟩
      · exact .inl (covers_cons.mpr (.inl ⟨hge, hle⟩))

/-- The gaps come in ascending order. -/
theorem gapsFrom_ordered (h : Separate ranges) :
    (gapsFrom low ranges size).Pairwise fun a b => a.2 < b.1 := by
  induction ranges generalizing low with
  | nil =>
    rw [gapsFrom]
    split
    · exact List.pairwise_singleton _ _
    · exact .nil
  | cons range rest ih =>
    have hne := h.nonempty range List.mem_cons_self
    refine List.pairwise_append.mpr ⟨?_, ih h.tail, fun a ha b hb => ?_⟩
    · split
      · exact List.pairwise_singleton _ _
      · exact .nil
    · have hge := gapsFrom_ge b hb (fun r hr => h.head_lt r hr) h.tail
      split at ha
      · rw [List.mem_singleton.mp ha]
        dsimp only
        omega
      · cases ha

end Ranges
