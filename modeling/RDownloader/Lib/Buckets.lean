import Mathlib.Data.List.Nodup
import Mathlib.Data.List.Perm.Basic

/-!
# Entries sorted into buckets, and answers written back to their places

A bucket is a key with its entries. However an entry finds its bucket, sorting neither loses an entry
nor doubles one: the entries of all buckets are a permutation of what was sorted.
-/

namespace Buckets

variable {κ : Type u} {α : Type v}

/-- What each part keeps some of, without doubling any of it, is not doubled in the whole. -/
theorem nodup_flatMap_of_subset {f g : κ → List α} {l : List κ} (h : (l.flatMap g).Nodup)
    (hnodup : ∀ k ∈ l, (f k).Nodup) (hsubset : ∀ k ∈ l, f k ⊆ g k) : (l.flatMap f).Nodup := by
  rw [List.nodup_flatMap] at h ⊢
  refine ⟨hnodup, h.2.imp_of_mem ?_⟩
  intro a b ha hb hdisjoint
  exact List.disjoint_of_subset_left (hsubset a ha)
    (List.disjoint_of_subset_right (hsubset b hb) hdisjoint)

/-! ## A map kept in the order of its keys -/

/-- The entry goes to the end of its key's bucket; a new key stands before the first one it is not
behind. -/
def push [DecidableEq κ] (notAfter : κ → κ → Bool) (key : κ) (a : α) :
    List (κ × List α) → List (κ × List α)
  | [] => [(key, [a])]
  | bucket :: buckets =>
    if bucket.1 = key then (bucket.1, bucket.2 ++ [a]) :: buckets
    else if notAfter bucket.1 key then bucket :: push notAfter key a buckets
    else (key, [a]) :: bucket :: buckets

/-- The entries that have a key, by their keys. -/
def collect [DecidableEq κ] (notAfter : κ → κ → Bool) (key? : α → Option κ) (l : List α) :
    List (κ × List α) :=
  l.foldl (fun buckets a => match key? a with
    | some key => push notAfter key a buckets
    | none => buckets) []

/-- All entries. -/
def entries (buckets : List (κ × List α)) : List α := buckets.flatMap Prod.snd

variable {buckets : List (κ × List α)}

theorem entries_cons (bucket : κ × List α) (buckets : List (κ × List α)) :
    entries (bucket :: buckets) = bucket.2 ++ entries buckets := List.flatMap_cons

theorem mem_entries (hbucket : bucket ∈ buckets) (h : a ∈ bucket.2) : a ∈ entries buckets :=
  List.mem_flatMap.mpr ⟨bucket, hbucket, h⟩

theorem entries_push [DecidableEq κ] (notAfter : κ → κ → Bool) (key : κ) (a : α)
    (buckets : List (κ × List α)) :
    (entries (push notAfter key a buckets)).Perm (entries buckets ++ [a]) := by
  induction buckets with
  | nil => exact .refl _
  | cons bucket buckets ih =>
    rw [push]
    split
    · rw [entries_cons, entries_cons, List.append_assoc, List.append_assoc]
      exact List.perm_append_comm.append_left _
    · split
      · rw [entries_cons, entries_cons, List.append_assoc]
        exact ih.append_left _
      · rw [entries_cons]
        exact List.perm_append_comm

/-- What was collected is what has a key. -/
theorem entries_collect [DecidableEq κ] (notAfter : κ → κ → Bool) (key? : α → Option κ)
    (l : List α) :
    (entries (collect notAfter key? l)).Perm (l.filter (key? · |>.isSome)) := by
  have hgeneral : ∀ buckets : List (κ × List α),
      (entries (l.foldl (fun buckets a => match key? a with
        | some key => push notAfter key a buckets
        | none => buckets) buckets)).Perm
        (entries buckets ++ l.filter (key? · |>.isSome)) := by
    induction l with
    | nil => simp
    | cons a l ih =>
      intro buckets
      rw [List.foldl_cons]
      apply (ih _).trans
      cases hkey : key? a with
      | none => rw [List.filter_cons_of_neg (by simp [hkey])]
      | some key =>
        rw [List.filter_cons_of_pos (by simp [hkey])]
        apply ((entries_push notAfter key a buckets).append_right _).trans
        rw [List.append_assoc, List.singleton_append]
  exact hgeneral []

/-! ## The first bucket that fits -/

/-- The first bucket whose key fits takes the entry and changes its key; else there is a new one. -/
def join (fits : κ → Bool) (changed : κ → κ) (key : κ) (a : α) :
    List (κ × List α) → List (κ × List α)
  | [] => [(key, [a])]
  | bucket :: buckets =>
    if fits bucket.1 then (changed bucket.1, bucket.2 ++ [a]) :: buckets
    else bucket :: join fits changed key a buckets

theorem entries_join (fits : κ → Bool) (changed : κ → κ) (key : κ) (a : α)
    (buckets : List (κ × List α)) :
    (entries (join fits changed key a buckets)).Perm (entries buckets ++ [a]) := by
  induction buckets with
  | nil => exact .refl _
  | cons bucket buckets ih =>
    rw [join]
    split
    · rw [entries_cons, entries_cons, List.append_assoc, List.append_assoc]
      exact List.perm_append_comm.append_left _
    · rw [entries_cons, entries_cons, List.append_assoc]
      exact ih.append_left _

/-! ## Answers written to their places -/

variable {β : Type w}

/-- The writes one after another. -/
def scatter (out : List β) (writes : List (Nat × β)) : List β :=
  writes.foldl (fun out write => out.set write.1 write.2) out

theorem length_scatter (out : List β) (writes : List (Nat × β)) :
    (scatter out writes).length = out.length := by
  induction writes generalizing out with
  | nil => rfl
  | cons write writes ih =>
    rw [scatter, List.foldl_cons]
    exact (ih _).trans List.length_set

theorem getElem?_scatter_other {out : List β} {writes : List (Nat × β)}
    (h : ∀ write ∈ writes, write.1 ≠ place) : (scatter out writes)[place]? = out[place]? := by
  induction writes generalizing out with
  | nil => rfl
  | cons write writes ih =>
    rw [scatter, List.foldl_cons]
    apply (ih fun w hw => h w (List.mem_cons_of_mem _ hw)).trans
    exact List.getElem?_set_ne (h write (List.mem_cons_self ..))

/-- Where no place is written twice, each keeps what was written to it. -/
theorem getElem?_scatter {out : List β} {writes : List (Nat × β)}
    (hnodup : (writes.map Prod.fst).Nodup) (hwrite : write ∈ writes)
    (hplace : write.1 < out.length) : (scatter out writes)[write.1]? = some write.2 := by
  induction writes generalizing out with
  | nil => cases hwrite
  | cons first writes ih =>
    rw [List.map_cons, List.nodup_cons] at hnodup
    rw [scatter, List.foldl_cons]
    rcases List.mem_cons.mp hwrite with rfl | hwrite
    · have hother : ∀ w ∈ writes, w.1 ≠ write.1 := by
        intro w hw heq
        exact hnodup.1 (heq ▸ List.mem_map_of_mem hw)
      apply (getElem?_scatter_other hother).trans
      exact List.getElem?_set_self hplace
    · exact ih hnodup.2 hwrite (by rwa [List.length_set])

end Buckets
