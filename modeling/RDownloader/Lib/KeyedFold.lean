import Mathlib.Data.List.MinMax
import Std.Data.ExtTreeMap

/-!
# Maps filled by a fold, and the winner of a slot

Entries go into a map one after the other, each into the value of its key. What a key ends up with
is the fold over the entries of that key, and where every entry stays or is replaced by one of
smaller rank, it is the first of the smallest.
-/

namespace KeyedFold

variable {α : Type u} {κ : Type v} {β : Type w} [Ord κ] [Std.TransOrd κ] [Std.LawfulEqOrd κ]
  [DecidableEq κ] {key? : α → Option κ} {take : α → Option β → Option β}
  {map : Std.ExtTreeMap κ β} {l : List α}

/-- An entry with a key is taken into the value there. -/
def step (key? : α → Option κ) (take : α → Option β → Option β) (map : Std.ExtTreeMap κ β) (a : α) :
    Std.ExtTreeMap κ β :=
  match key? a with
  | none => map
  | some key => map.alter key (take a)

/-- The entries are taken in one after the other. -/
def fill (key? : α → Option κ) (take : α → Option β → Option β) (map : Std.ExtTreeMap κ β)
    (l : List α) : Std.ExtTreeMap κ β :=
  l.foldl (step key? take) map

/-- A key has what the entries of its own made of its value. -/
theorem getElem?_fill (key : κ) : (fill key? take map l)[key]? =
    (l.filter fun a => key? a = some key).foldl (fun value a => take a value) map[key]? := by
  induction l generalizing map with
  | nil => rfl
  | cons a l ih =>
    rw [fill, List.foldl_cons, ← fill, ih, List.filter_cons, step]
    cases ha : key? a with
    | none => rfl
    | some other =>
      dsimp only
      rw [Std.ExtTreeMap.getElem?_alter]
      by_cases hsame : other = key
      · subst hsame
        rw [if_pos Std.ReflOrd.compare_self, if_pos (decide_eq_true rfl), List.foldl_cons]
      · rw [if_neg fun heq => hsame (Std.LawfulEqOrd.eq_of_compare heq),
          if_neg (by simpa using hsame)]

/-- A value that every entry turns into another. -/
theorem foldl_some (f : β → α → β) (start : β) :
    l.foldl (fun value a => some (f (value.getD start) a)) (none : Option β) =
      if l = [] then none else some (l.foldl f start) := by
  have hsome : ∀ (l : List α) (value : β),
      l.foldl (fun value a => some (f (value.getD start) a)) (some value) =
        some (l.foldl f value) := by
    intro l
    induction l with
    | nil => exact fun _ => rfl
    | cons a l ih => exact fun value => ih (f value a)
  cases l with
  | nil => rfl
  | cons a l => exact hsome l (f start a)

/-! ## Winners -/

variable {ρ : Type w} [LinearOrder ρ] {rank : α → ρ} {f : α → β}

/-- A slot that keeps the smaller of two ranks keeps the first of the smallest. -/
theorem foldl_settle {settle : α → Option β → Option β} (hnone : ∀ a, settle a none = some (f a))
    (hsome : ∀ a ∈ l, ∀ b ∈ l, settle a (some (f b)) = some (f (if rank a < rank b then a else b))) :
    l.foldl (fun value a => settle a value) none = (l.argmin rank).map f := by
  induction l using List.reverseRecOn with
  | nil => rfl
  | append_singleton l a ih =>
    have hl := ih fun b hb c hc => hsome b (List.mem_append_left _ hb) c (List.mem_append_left _ hc)
    rw [List.foldl_append, hl, List.argmin_concat, List.foldl_cons, List.foldl_nil]
    cases hmin : l.argmin rank with
    | none => exact hnone a
    | some b =>
      have hb := List.mem_append_left [a] (List.argmin_mem (Option.mem_def.mpr hmin))
      have ha : a ∈ l ++ [a] := List.mem_append_right _ (List.mem_singleton_self a)
      rw [Option.map_some, hsome a ha b hb]
      dsimp only
      split
      · rfl
      · rfl

/-- The rank of the winner does not depend on the order. -/
theorem rank_argmin_le {a b : α} (h : l.argmin rank = some a) (hb : b ∈ l) : rank a ≤ rank b :=
  List.le_of_mem_argmin hb h

/-- A first entry of smallest rank wins. -/
theorem argmin_cons_of_le {a : α} (h : ∀ b ∈ l, rank a ≤ rank b) : (a :: l).argmin rank = some a := by
  rw [List.argmin_cons]
  cases hmin : l.argmin rank with
  | none => rfl
  | some b =>
    have hle := h b (List.argmin_mem (Option.mem_def.mpr hmin))
    dsimp only
    exact if_neg (not_lt.mpr hle)

/-- The winner is the same in every order when no other entry has its rank. -/
theorem argmin_perm {listed : List α} (hperm : listed.Perm l)
    (h : ∀ a ∈ l, (∀ b ∈ l, rank a ≤ rank b) → ∀ b ∈ l, rank b = rank a → b = a) :
    listed.argmin rank = l.argmin rank := by
  cases hlisted : listed.argmin rank with
  | none =>
    rw [List.argmin_eq_none] at hlisted
    rw [hlisted] at hperm
    rw [hperm.nil_eq.symm]
    rfl
  | some b =>
    have hb := hperm.mem_iff.mp (List.argmin_mem (Option.mem_def.mpr hlisted))
    cases hmin : l.argmin rank with
    | none =>
      rw [List.argmin_eq_none] at hmin
      rw [hmin] at hb
      exact absurd hb List.not_mem_nil
    | some a =>
      have ha := List.argmin_mem (Option.mem_def.mpr hmin)
      have hleast : ∀ c ∈ l, rank a ≤ rank c := fun c hc => rank_argmin_le hmin hc
      have hrank : rank b ≤ rank a := rank_argmin_le hlisted (hperm.mem_iff.mpr ha)
      rw [h a ha hleast b hb (le_antisymm hrank (hleast b hb))]

end KeyedFold
