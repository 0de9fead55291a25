import RDownloader.Core.Words
import RDownloader.Lib.Ranges

/-!
# The byte ranges articles have filled (`rd-usenet/src/worker_assembly.rs`)

The map from the first to the last byte of each range is a list in the order of the map. A range is
tested against its two neighbours only, and what is left over is listed in one pass in 64-bit words.
-/

namespace RDownloader

open Ranges

/-- The ranges in the order of the map. -/
structure Covered where
  ranges : List Range := []
  deriving DecidableEq

namespace Covered

variable {covered covered' : Covered} {range r : Range} {calls before after : List Range}
  {filled taken : List Range} {next size : Nat}

/-- `self.0.range(..=begin).next_back()`. -/
def earlier (covered : Covered) (range : Range) : Option Range :=
  (covered.ranges.filter (·.1 ≤ range.1)).getLast?

/-- `self.0.range(begin..).next()`. -/
def later (covered : Covered) (range : Range) : Option Range :=
  covered.ranges.find? (range.1 ≤ ·.1)

def overlapping (range : Range) : String :=
  "overlapping yEnc part range " ++ toString range.1 ++ "-" ++ toString range.2

def insert (covered : Covered) (range : Range) : Except String Covered :=
  if (covered.earlier range).any (range.1 ≤ ·.2) then
    .error (overlapping range)
  else if (covered.later range).any (·.1 ≤ range.2) then
    .error (overlapping range)
  else
    .ok { ranges := put covered.ranges range }

/-- Books an article's range, if the file can hold it and nothing has written there yet. -/
def claim (covered : Covered) (range : Range) (length : Nat) (declaredSize : Option Nat) :
    Except String Covered :=
  if range.1 = 0 ∨ range.2 < range.1 then
    .error ("invalid yEnc part range " ++ toString range.1 ++ "-" ++ toString range.2)
  else if range.2 - range.1 + 1 ≠ length then
    .error "yEnc part range does not match decoded length"
  else if declaredSize.any (· < range.2) then
    .error ("yEnc part range " ++ toString range.1 ++ "-" ++ toString range.2 ++
      " lies outside the announced file size")
  else
    covered.insert range

/-- The rest of the pass, with everything below `next` seen. -/
def holesFrom (next : Nat) : List Range → Nat → List Range
  | [], size => if next ≤ size then [(next, size)] else []
  | range :: rest, size =>
    (if next < range.1 then [(next, range.1 - 1)] else []) ++
      holesFrom (saturatingAdd range.2 1) rest size

/-- The ranges of a file of `size` bytes that no article covered. -/
def holes (covered : Covered) (size : Nat) : List Range := holesFrom 1 covered.ranges size

/-- A call that fails leaves the map as it was. -/
def call (covered : Covered) (range : Range) : Covered :=
  match covered.insert range with
  | .ok covered' => covered'
  | .error _ => covered

def run (calls : List Range) : Covered := calls.foldl call {}

/-! ## What is to come out -/

def take (taken : List Range) (range : Range) : List Range :=
  if ∀ r ∈ taken, ¬ Meets r range then taken ++ [range] else taken

/-- The ranges that met none accepted before them. -/
def accepted (calls : List Range) : List Range := calls.foldl take []

/-- A range of bytes counted from one. -/
structure IsCall (range : Range) : Prop where
  pos : 1 ≤ range.1
  nonempty : range.1 ≤ range.2
  word : range.2 ≤ u64Max

/-- Calls succeed when their range is free, and the holes are what the accepted ranges leave. -/
structure Exact (calls : List Range) : Prop where
  succeeds : ∀ before range after, calls = before ++ range :: after →
    ((∃ covered, (run before).insert range = .ok covered) ↔
      ∀ r ∈ accepted before, ¬ Meets r range)
  ordered : ∀ size ≤ u64Max, (∀ r ∈ accepted calls, r.2 ≤ size) →
    ((run calls).holes size).Pairwise fun a b => a.2 < b.1
  holes : ∀ size ≤ u64Max, (∀ r ∈ accepted calls, r.2 ≤ size) →
    ∀ gap, gap ∈ (run calls).holes size ↔ IsGap 1 (accepted calls) size gap

/-! ## Calls -/

theorem insert_eq (h : Separate covered.ranges) (hne : range.1 ≤ range.2) :
    covered.insert range = if ∀ r ∈ covered.ranges, ¬ Meets r range then
      .ok { ranges := put covered.ranges range } else .error (overlapping range) := by
  have hfree := free_iff_neighbours h hne
  have hearlier : (covered.earlier range).any (range.1 ≤ ·.2) = true ↔
      ¬ ∀ r ∈ (covered.ranges.filter (·.1 ≤ range.1)).getLast?, r.2 < range.1 := by
    simp [earlier, Option.any_eq_true]
  have hlater : (covered.later range).any (·.1 ≤ range.2) = true ↔
      ¬ ∀ r ∈ covered.ranges.find? (range.1 ≤ ·.1), range.2 < r.1 := by
    simp [later, Option.any_eq_true]
  by_cases h₁ : ∀ r ∈ (covered.ranges.filter (·.1 ≤ range.1)).getLast?, r.2 < range.1
  · rw [insert, if_neg (fun hany => hearlier.mp hany h₁)]
    by_cases h₂ : ∀ r ∈ covered.ranges.find? (range.1 ≤ ·.1), range.2 < r.1
    · rw [if_neg fun hany => hlater.mp hany h₂, if_pos (hfree.mpr ⟨h₁, h₂⟩)]
    · rw [if_pos (hlater.mpr h₂), if_neg fun hall => h₂ (hfree.mp hall).2]
  · rw [insert, if_pos (hearlier.mpr h₁), if_neg fun hall => h₁ (hfree.mp hall).1]

/-- The map holds the accepted ranges, and none of them meets another. -/
structure Holds (covered : Covered) (taken : List Range) : Prop where
  separate : Separate covered.ranges
  mem_iff : ∀ r, r ∈ covered.ranges ↔ r ∈ taken

theorem Holds.insert (h : Holds covered taken) (hne : range.1 ≤ range.2) :
    (∃ covered', covered.insert range = .ok covered') ↔ ∀ r ∈ taken, ¬ Meets r range := by
  rw [insert_eq h.separate hne]
  simp only [h.mem_iff]
  split
  · exact ⟨fun _ => ‹_›, fun _ => ⟨_, rfl⟩⟩
  · exact ⟨nofun, fun hfree => absurd hfree ‹_›⟩

theorem Holds.call (h : Holds covered taken) (hne : range.1 ≤ range.2) :
    Holds (covered.call range) (take taken range) := by
  rw [Covered.call, insert_eq h.separate hne, take]
  simp only [h.mem_iff]
  by_cases hfree : ∀ r ∈ taken, ¬ Meets r range
  · rw [if_pos hfree, if_pos hfree]
    have hfree' : ∀ r ∈ covered.ranges, ¬ Meets r range :=
      fun r hr => hfree r ((h.mem_iff r).mp hr)
    refine ⟨h.separate.put hne hfree', fun r => ?_⟩
    rw [mem_put h.separate hne hfree', h.mem_iff, List.mem_append, List.mem_singleton]
  · rw [if_neg hfree, if_neg hfree]
    exact h

theorem Holds.insert_ok (h : Holds covered taken) (hne : range.1 ≤ range.2)
    (hok : covered.insert range = .ok covered') :
    (∀ r ∈ taken, ¬ Meets r range) ∧ Holds covered' (taken ++ [range]) := by
  have hfree := (h.insert hne).mp ⟨_, hok⟩
  have hcall := h.call hne
  rw [Covered.call, hok, take, if_pos hfree] at hcall
  exact ⟨hfree, hcall⟩

/-- Ranges put in one by one, as long as each is accepted. -/
theorem Holds.foldlM (h : Holds covered taken) (hcalls : ∀ range ∈ calls, range.1 ≤ range.2)
    (hok : calls.foldlM Covered.insert covered = .ok covered') : Holds covered' (taken ++ calls) := by
  induction calls generalizing covered taken with
  | nil =>
    cases hok
    rw [List.append_nil]
    exact h
  | cons range calls ih =>
    rw [List.foldlM_cons] at hok
    cases hinsert : covered.insert range with
    | error error =>
      rw [hinsert] at hok
      cases hok
    | ok next =>
      rw [hinsert] at hok
      have hnext := (h.insert_ok (hcalls range List.mem_cons_self) hinsert).2
      have hrest := ih hnext (fun r hr => hcalls r (List.mem_cons_of_mem _ hr)) hok
      rwa [List.append_assoc, List.singleton_append] at hrest

theorem Holds.run (h : Holds covered taken) (hcalls : ∀ range ∈ calls, range.1 ≤ range.2) :
    Holds (calls.foldl Covered.call covered) (calls.foldl take taken) := by
  induction calls generalizing covered taken with
  | nil => exact h
  | cons range calls ih =>
    exact ih (h.call (hcalls range List.mem_cons_self))
      fun r hr => hcalls r (List.mem_cons_of_mem _ hr)

theorem holds_run (hcalls : ∀ range ∈ calls, range.1 ≤ range.2) :
    Holds (run calls) (accepted calls) :=
  Holds.run ⟨separate_nil, fun _ => Iff.rfl⟩ hcalls

theorem mem_take (h : r ∈ take taken range) : r ∈ taken ∨ r = range := by
  rw [take] at h
  split at h
  · exact (List.mem_append.mp h).imp_right List.mem_singleton.mp
  · exact .inl h

/-- Only what was asked for is accepted. -/
theorem accepted_subset : ∀ r ∈ accepted calls, r ∈ calls := by
  have hfold : ∀ taken : List Range, ∀ r ∈ calls.foldl take taken, r ∈ taken ∨ r ∈ calls := by
    induction calls with
    | nil => exact fun taken r hr => .inl hr
    | cons range calls ih =>
      intro taken r hr
      obtain hr | hr := ih (take taken range) r hr
      · refine (mem_take hr).imp_right fun heq => ?_
        rw [heq]
        exact List.mem_cons_self
      · exact .inr (List.mem_cons_of_mem _ hr)
  intro r hr
  exact (hfold [] r hr).resolve_left List.not_mem_nil

/-! ## Holes -/

/-- Below the last word nothing saturates. -/
theorem holesFrom_eq (hbelow : ∀ r ∈ filled, r.2 < u64Max) :
    holesFrom next filled size = gapsFrom next filled size := by
  induction filled generalizing next with
  | nil => rfl
  | cons range rest ih =>
    have hlt := hbelow range List.mem_cons_self
    have hsum : saturatingAdd range.2 1 = range.2 + 1 := Nat.min_eq_left hlt
    rw [holesFrom, gapsFrom, hsum, ih fun r hr => hbelow r (List.mem_cons_of_mem _ hr)]

/-- Behind a range that ends with the last word, that word is listed once more. -/
theorem holesFrom_last (h : Separate filled) (hword : ∀ r ∈ filled, r.2 ≤ u64Max)
    (hr : r ∈ filled) (hlast : r.2 = u64Max) :
    (u64Max, u64Max) ∈ holesFrom next filled u64Max := by
  induction filled generalizing next with
  | nil => cases hr
  | cons range rest ih =>
    refine List.mem_append_right _ ?_
    obtain rfl | hr := List.mem_cons.mp hr
    · have hrest : rest = [] := by
        refine List.eq_nil_iff_forall_not_mem.mpr fun r' hr' => ?_
        have hlt := h.head_lt r' hr'
        have hne := h.nonempty r' (List.mem_cons_of_mem _ hr')
        have hle := hword r' (List.mem_cons_of_mem _ hr')
        omega
      have hsum : saturatingAdd r.2 1 = u64Max := by rw [hlast]; rfl
      rw [hrest, hsum, holesFrom, if_pos (Nat.le_refl _)]
      exact List.mem_singleton_self _
    · exact ih h.tail (fun r' hr' => hword r' (List.mem_cons_of_mem _ hr')) hr

/-- The holes are exact as long as no accepted range ends with the last word. -/
theorem exact_iff (hcalls : ∀ range ∈ calls, IsCall range) :
    Exact calls ↔ ∀ r ∈ accepted calls, r.2 ≠ u64Max := by
  have hholds := holds_run fun range hrange => (hcalls range hrange).nonempty
  have hword : ∀ r ∈ accepted calls, r.2 ≤ u64Max :=
    fun r hr => (hcalls r (accepted_subset r hr)).word
  have hcovers : ∀ n, Covers (run calls).ranges n ↔ Covers (accepted calls) n :=
    fun n => exists_congr fun r => and_congr_left' (hholds.mem_iff r)
  constructor
  · intro h r hr hlast
    have hhole : (u64Max, u64Max) ∈ holesFrom 1 (run calls).ranges u64Max :=
      holesFrom_last hholds.separate (fun r hr => hword r ((hholds.mem_iff r).mp hr))
        ((hholds.mem_iff r).mpr hr) hlast
    have hgap := (h.holes u64Max (Nat.le_refl _) hword _).mp hhole
    exact hgap.free u64Max (Nat.le_refl _) (Nat.le_refl _)
      ⟨r, hr, hlast ▸ (hcalls r (accepted_subset r hr)).nonempty, Nat.le_of_eq hlast.symm⟩
  · intro hbelow
    have heq : ∀ size, (run calls).holes size = gapsFrom 1 (run calls).ranges size :=
      fun size => holesFrom_eq fun r hr => Nat.lt_of_le_of_ne
        (hword r ((hholds.mem_iff r).mp hr)) (hbelow r ((hholds.mem_iff r).mp hr))
    refine ⟨fun before range after hsplit => ?_, fun size _ _ => ?_, fun size _ hsize gap => ?_⟩
    · subst hsplit
      exact (holds_run fun r hr => (hcalls r (List.mem_append_left _ hr)).nonempty).insert
        (hcalls range (by simp)).nonempty
    · rw [heq]
      exact gapsFrom_ordered hholds.separate
    · have hpos : ∀ r ∈ (run calls).ranges, 1 ≤ r.1 :=
        fun r hr => (hcalls r (accepted_subset r ((hholds.mem_iff r).mp hr))).pos
      rw [heq, mem_gapsFrom hholds.separate hpos fun r hr => hsize r ((hholds.mem_iff r).mp hr)]
      exact isGap_congr hcovers

theorem exact_two : (∀ range ∈ [(3, 5), (1, 2), (2, 4)], IsCall range) ∧
    Exact [(3, 5), (1, 2), (2, 4)] := by
  have hcalls : ∀ range ∈ [((3, 5) : Range), (1, 2), (2, 4)], IsCall range := by
    simp only [List.mem_cons, List.not_mem_nil, or_false]
    rintro _ (rfl | rfl | rfl) <;> exact ⟨by decide, by decide, by decide⟩
  exact ⟨hcalls, (exact_iff hcalls).mpr (by decide)⟩

/-- The last byte of all is listed as a hole though it is covered. -/
theorem not_exact : ¬ ∀ calls : List Range, (∀ range ∈ calls, IsCall range) → Exact calls := by
  intro h
  have hcalls : ∀ range ∈ [((1, u64Max) : Range)], IsCall range := by
    intro range hrange
    rw [List.mem_singleton.mp hrange]
    exact ⟨by decide, by decide, by decide⟩
  have hgap := ((h _ hcalls).holes u64Max (Nat.le_refl _) (by decide +kernel) (u64Max, u64Max)).mp
    (by decide +kernel)
  exact hgap.free u64Max (Nat.le_refl _) (Nat.le_refl _)
    ⟨(1, u64Max), by decide, by decide, by decide⟩

/-! ## Articles -/

/-- What is booked lies in the announced file, so a file below the last word keeps clear of it. -/
theorem claim_ok (h : covered.claim range length declaredSize = .ok covered') :
    (1 ≤ range.1 ∧ range.1 ≤ range.2 ∧ length = range.2 - range.1 + 1 ∧
      ∀ size ∈ declaredSize, range.2 ≤ size) ∧ covered.insert range = .ok covered' := by
  rw [claim] at h
  split at h
  · cases h
  · split at h
    · cases h
    · split at h
      · cases h
      · rename_i hrange hlength hsize
        simp only [Option.any_eq_true, decide_eq_true_eq, not_exists, not_and, Nat.not_lt] at hsize
        exact ⟨⟨by omega, by omega, by omega, hsize⟩, h⟩

end Covered
end RDownloader
