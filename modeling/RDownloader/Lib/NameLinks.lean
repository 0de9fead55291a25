import Mathlib.Logic.Function.Basic
import Mathlib.Logic.Relation

/-!
# Names that lead to files

A name stands for a file, for a directory or for another name. It is followed from name to name, a
bounded number of times; what it leads to depends on the names on its way only.
-/

inductive NameEntry (ν : Type u) where
  | file (inode : Nat)
  | dir
  | link (target : ν)
  deriving DecidableEq, Repr

/-- What a name leads to in the end. -/
inductive NameTarget where
  | file (inode : Nat)
  | dir
  deriving DecidableEq, Repr

/-- The names of one place. -/
abbrev NameTable (ν : Type u) := ν → Option (NameEntry ν)

namespace NameTable

open Relation Function

variable {ν : Type u}

/-- What a name leads to, with at most so many links on the way. -/
def follow (names : NameTable ν) : Nat → ν → Option NameTarget
  | 0, name =>
    match names name with
    | some (.file inode) => some (.file inode)
    | some .dir => some .dir
    | _ => none
  | limit + 1, name =>
    match names name with
    | some (.file inode) => some (.file inode)
    | some .dir => some .dir
    | some (.link target) => follow names limit target
    | none => none

def LinksTo (names : NameTable ν) (name target : ν) : Prop := names name = some (.link target)

/-- The second name stands on the way of the first. -/
abbrev Leads (names : NameTable ν) : ν → ν → Prop := ReflTransGen names.LinksTo

variable {names names' : NameTable ν} {limit : Nat} {name other target : ν} {found : NameTarget}
  {inode : Nat} {entry : Option (NameEntry ν)}

theorem follow_file (h : names name = some (.file inode)) :
    names.follow limit name = some (.file inode) := by
  cases limit <;> rw [follow, h]

theorem follow_none (h : names name = none) : names.follow limit name = none := by
  cases limit <;> rw [follow, h]

theorem follow_zero_link (h : names name = some (.link target)) : names.follow 0 name = none := by
  rw [follow, h]

theorem follow_link (h : names name = some (.link target)) :
    names.follow (limit + 1) name = names.follow limit target := by
  rw [follow, h]

/-- One link more to follow does no harm. -/
theorem follow_succ (h : names.follow limit name = some found) :
    names.follow (limit + 1) name = some found := by
  induction limit generalizing name with
  | zero =>
    rw [follow] at h
    rw [follow]
    split at h
    · next hentry => rw [hentry]; exact h
    · next hentry => rw [hentry]; exact h
    · cases h
  | succ limit ih =>
    rw [follow] at h
    rw [follow]
    split at h
    · exact h
    · exact h
    · exact ih h
    · cases h

/-- A name on the way leads where the way leads. -/
theorem follow_of_leads (h : names.follow limit name = some found) (hleads : names.Leads name other) :
    names.follow limit other = some found := by
  induction hleads with
  | refl => exact h
  | tail _ hlink ih =>
    cases limit with
    | zero =>
      rw [follow_zero_link hlink] at ih
      cases ih
    | succ limit =>
      rw [follow_link hlink] at ih
      exact follow_succ ih

/-- A way that leads somewhere does not come back to a name. -/
theorem not_leads_back (h : names.follow limit name = some found) (hlink : names.LinksTo name target) :
    ¬ names.Leads target name := by
  intro hback
  induction limit with
  | zero =>
    rw [follow_zero_link hlink] at h
    cases h
  | succ limit ih =>
    rw [follow_link hlink] at h
    exact ih (follow_of_leads h hback)

/-- Two tables that agree on the way of a name lead it to the same place. -/
theorem follow_congr (h : ∀ other, names.Leads name other → names' other = names other) :
    names'.follow limit name = names.follow limit name := by
  induction limit generalizing name with
  | zero => rw [follow, follow, h name .refl]
  | succ limit ih =>
    rw [follow, follow, h name .refl]
    split
    · rfl
    · rfl
    · next target hlink => exact ih fun other hleads => h other (.head hlink hleads)
    · rfl

theorem leads_congr (h : ∀ other, names.Leads name other → names' other = names other) :
    names'.Leads name other ↔ names.Leads name other := by
  constructor
  · intro hleads
    induction hleads with
    | refl => exact .refl
    | tail _ hlink ih => exact ih.tail ((h _ ih).symm.trans hlink)
  · intro hleads
    induction hleads with
    | refl => exact .refl
    | tail hbefore hlink ih => exact ih.tail ((h _ hbefore).trans hlink)

variable [DecidableEq ν] {changed : ν}

/-- A changed name that is not on the way. -/
theorem agree_update (entry : Option (NameEntry ν)) (hfree : ¬ names.Leads name changed) :
    ∀ other, names.Leads name other → update names changed entry other = names other := by
  intro other hleads
  refine update_of_ne ?_ _ _
  rintro rfl
  exact hfree hleads

/-- A name that becomes anything but a link puts nothing on the way of another. -/
theorem leads_of_update (hentry : ∀ target, entry ≠ some (.link target))
    (h : NameTable.Leads (update names changed entry) name other) : names.Leads name other := by
  refine ReflTransGen.mono ?_ _ _ h
  intro first second hlink
  by_cases hfirst : first = changed
  · rw [LinksTo, hfirst, update_self] at hlink
    exact absurd hlink (hentry second)
  · rw [LinksTo, update_of_ne hfirst] at hlink
    exact hlink

/-- A way through a name that is taken away ends there. -/
theorem follow_cleared (h : names.Leads name changed) :
    NameTable.follow (update names changed none) limit name = none := by
  induction h using Relation.ReflTransGen.head_induction_on generalizing limit with
  | refl => exact follow_none (update_self ..)
  | @head first second hlink _ ih =>
    by_cases hfirst : first = changed
    · exact follow_none (by rw [hfirst, update_self])
    · have hlink' : update names changed none first = some (.link second) := by
        rw [update_of_ne hfirst]
        exact hlink
      cases limit with
      | zero => exact follow_zero_link hlink'
      | succ limit => exact (follow_link hlink').trans ih

/-- A name moved to another that is not on its way leads where it led. -/
theorem follow_moved (h : names.follow limit name = some found) (hfree : ¬ names.Leads name other) :
    NameTable.follow (update (update names other (names name)) name none) limit other =
      some found := by
  have hne : other ≠ name := by
    rintro rfl
    exact hfree .refl
  have hother : update (update names other (names name)) name none other = names name := by
    rw [update_of_ne hne, update_self]
  generalize hmoved : update (update names other (names name)) name none = moved at hother ⊢
  have hbehind : ∀ target, names.LinksTo name target → ∀ last, names.Leads target last →
      moved last = names last := by
    subst hmoved
    intro target hlink last hleads
    rw [update_of_ne, update_of_ne]
    · rintro rfl
      exact hfree (.head hlink hleads)
    · rintro rfl
      exact not_leads_back h hlink hleads
  cases limit with
  | zero =>
    rw [follow] at h ⊢
    rw [hother]
    exact h
  | succ limit =>
    rw [follow] at h ⊢
    rw [hother]
    split at h
    · exact h
    · exact h
    · next target hentry => exact (follow_congr (hbehind target hentry)).trans h
    · cases h

end NameTable
