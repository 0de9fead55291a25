import RDownloader.Collector.Grouping

/-!
# What comes of grouping

Every link lands in one group, in the order of submission, and links with one hint land together. A
container opens a group; a later link may still be taken into it by its name.
-/

namespace RDownloader

open Text Grouping

variable {groups : List Group} {group new : Group} {fits : Text → Bool} {sorted : Sorted}
  {input other : GroupInput} {before after inputs : List GroupInput} {name base : Text}
  {members : List Nat}

/-! ## Adding one link -/

theorem addTo_perm (fits : Text → Bool) (new : Group) (groups : List Group) :
    ((addTo fits new groups).flatMap (·.members)).Perm (groups.flatMap (·.members) ++ new.members) := by
  induction groups with
  | nil => simp [addTo]
  | cons group groups ih =>
    rw [addTo]
    split
    · simp only [List.flatMap_cons, List.append_assoc]
      exact List.perm_append_comm.append_left _
    · simp only [List.flatMap_cons, List.append_assoc]
      exact ih.append_left _

/-- A container opens a group whatever the names. -/
theorem append_eq_addTo (new : Group) (groups : List Group) :
    groups ++ [new] = addTo (fun _ => false) new groups := by
  induction groups with
  | nil => rfl
  | cons group groups ih =>
    rw [addTo, if_neg Bool.false_ne_true, List.cons_append, ih]

/-- A group afterwards is one from before, perhaps with the link, or the new one. -/
theorem mem_addTo (h : group ∈ addTo fits new groups) :
    group ∈ groups ∨ group = new ∨
      ∃ old ∈ groups, fits old.name ∧ group = { old with members := old.members ++ new.members } := by
  induction groups with
  | nil => exact .inr (.inl (List.mem_singleton.mp h))
  | cons first groups ih =>
    rw [addTo] at h
    split at h
    · obtain rfl | h := List.mem_cons.mp h
      · exact .inr (.inr ⟨first, List.mem_cons_self, ‹_›, rfl⟩)
      · exact .inl (List.mem_cons_of_mem _ h)
    · obtain rfl | h := List.mem_cons.mp h
      · exact .inl List.mem_cons_self
      · rcases ih h with h | h | ⟨old, hold, hfits, h⟩
        · exact .inl (List.mem_cons_of_mem _ h)
        · exact .inr (.inl h)
        · exact .inr (.inr ⟨old, List.mem_cons_of_mem _ hold, hfits, h⟩)

/-- A group whose name does not fit is left alone. -/
theorem mem_addTo_of_not_fits (h : group ∈ groups) (hname : fits group.name = false) :
    group ∈ addTo fits new groups := by
  induction groups with
  | nil => cases h
  | cons first groups ih =>
    rw [addTo]
    obtain rfl | h := List.mem_cons.mp h
    · rw [if_neg (Bool.eq_false_iff.mp hname)]
      exact List.mem_cons_self
    · split
      · exact List.mem_cons_of_mem _ h
      · exact List.mem_cons_of_mem _ (ih h)

/-- The first group of a name. -/
def firstNamed (name : Text) (groups : List Group) : Option Group :=
  groups.find? fun group => group.name = name

theorem firstNamed_cons_eq (h : group.name = name) :
    firstNamed name (group :: groups) = some group := by
  rw [firstNamed, List.find?_cons, decide_eq_true h]

theorem firstNamed_cons_ne (h : group.name ≠ name) :
    firstNamed name (group :: groups) = firstNamed name groups := by
  rw [firstNamed, List.find?_cons, decide_eq_false h]
  rfl

/-- Whatever is added, the first group of a name keeps its place and its members. -/
theorem firstNamed_addTo (h : firstNamed name groups = some group) :
    ∃ group', firstNamed name (addTo fits new groups) = some group' ∧
      group.members ⊆ group'.members := by
  induction groups with
  | nil => cases h
  | cons first groups ih =>
    rw [addTo]
    by_cases hname : first.name = name
    · rw [firstNamed_cons_eq hname] at h
      obtain rfl := Option.some.inj h
      split
      · exact ⟨_, firstNamed_cons_eq hname, List.subset_append_left _ _⟩
      · exact ⟨_, firstNamed_cons_eq hname, List.Subset.refl _⟩
    · rw [firstNamed_cons_ne hname] at h
      split
      · exact ⟨group, (firstNamed_cons_ne (by exact hname)).trans h, List.Subset.refl _⟩
      · obtain ⟨group', hfind, hsub⟩ := ih h
        exact ⟨group', (firstNamed_cons_ne hname).trans hfind, hsub⟩

theorem firstNamed_append (h : firstNamed name groups = some group) (more : List Group) :
    firstNamed name (groups ++ more) = some group := by
  rw [firstNamed] at h ⊢
  rw [List.find?_append, h]
  rfl

/-- Added by a name, a link is in the first group of that name. -/
theorem firstNamed_addTo_self (hnew : new.name = name) (groups : List Group) :
    ∃ group, firstNamed name (addTo (· = name) new groups) = some group ∧
      new.members ⊆ group.members := by
  induction groups with
  | nil => exact ⟨new, firstNamed_cons_eq hnew, List.Subset.refl _⟩
  | cons first groups ih =>
    rw [addTo]
    split
    · rename_i hname
      exact ⟨_, firstNamed_cons_eq (of_decide_eq_true hname), List.subset_append_right _ _⟩
    · rename_i hname
      obtain ⟨group, hfind, hsub⟩ := ih
      exact ⟨group, (firstNamed_cons_ne fun h => hname (decide_eq_true h)).trans hfind, hsub⟩

/-! ## Sorting the links -/

/-- What holds after any part of a submission. -/
structure Sorts (before : List GroupInput) (sorted : Sorted) : Prop where
  all : (sorted.groups.flatMap (·.members) ++ sorted.loose.map (·.index)).Perm
    (before.map (·.index))
  order : ∀ group ∈ sorted.groups, group.members.Sublist (before.map (·.index))
  loose : sorted.loose.Sublist before
  hints : ∀ input ∈ before, ∀ name ∈ input.hint, ∃ group,
    firstNamed name sorted.groups = some group ∧ input.index ∈ group.members

theorem sublist_snoc (h : members.Sublist (before.map (·.index))) (input : GroupInput) :
    members.Sublist ((before ++ [input]).map (·.index)) := by
  rw [List.map_append]
  exact h.trans (List.sublist_append_left _ _)

/-- A rule that puts a link into a group. -/
theorem Sorts.addTo (h : Sorts before sorted) (hnew : new.members = [input.index])
    (hhint : ∀ name ∈ input.hint, ∃ group,
      firstNamed name (RDownloader.addTo fits new sorted.groups) = some group ∧
        input.index ∈ group.members) :
    Sorts (before ++ [input])
      { sorted with groups := RDownloader.addTo fits new sorted.groups } := by
  have hlast : [input.index].Sublist ((before ++ [input]).map (·.index)) := by
    rw [List.map_append]
    exact List.sublist_append_right _ _
  refine ⟨?_, fun group hgroup => ?_, h.loose.trans (List.sublist_append_left _ _), ?_⟩
  · rw [List.map_append]
    calc ((RDownloader.addTo fits new sorted.groups).flatMap (·.members) ++
          sorted.loose.map (·.index)).Perm
          (sorted.groups.flatMap (·.members) ++ new.members ++ sorted.loose.map (·.index)) :=
        (addTo_perm fits new sorted.groups).append_right _
      List.Perm _ (sorted.groups.flatMap (·.members) ++ sorted.loose.map (·.index) ++ new.members) := by
        rw [List.append_assoc, List.append_assoc]
        exact List.perm_append_comm.append_left _
      List.Perm _ (before.map (·.index) ++ [input].map (·.index)) := by
        rw [hnew]
        exact h.all.append_right _
  · rcases mem_addTo hgroup with hgroup | rfl | ⟨old, hold, -, rfl⟩
    · exact sublist_snoc (h.order group hgroup) input
    · rwa [hnew]
    · rw [hnew, List.map_append]
      exact (h.order old hold).append (.refl _)
  · intro other hother name hname
    obtain hother | hother := List.mem_append.mp hother
    · obtain ⟨group, hfind, hmem⟩ := h.hints other hother name hname
      obtain ⟨group', hfind', hsub⟩ :
          ∃ group', firstNamed name (RDownloader.addTo fits new sorted.groups) = some group' ∧
            group.members ⊆ group'.members := firstNamed_addTo hfind
      exact ⟨group', hfind', hsub hmem⟩
    · obtain rfl := List.mem_singleton.mp hother
      exact hhint name hname

theorem route_of_hint (h : input.hint = some name) : input.route = .hint name := by
  rw [GroupInput.route, h]

theorem Sorts.place (h : Sorts before sorted) (input : GroupInput) :
    Sorts (before ++ [input]) (sorted.place input) := by
  rw [Sorted.place]
  split
  · rename_i hint hhint
    refine h.addTo rfl fun name hname => ?_
    rw [route_of_hint hname] at hhint
    cases hhint
    obtain ⟨group, hfind, hsub⟩ := firstNamed_addTo_self
      (rfl : (⟨hint, [input.index], true⟩ : Group).name = hint) sorted.groups
    exact ⟨group, hfind, hsub List.mem_cons_self⟩
  · rename_i name hcontainer
    rw [append_eq_addTo]
    refine h.addTo rfl fun hint hname => ?_
    rw [route_of_hint hname] at hcontainer
    cases hcontainer
  · rename_i base harchive
    refine h.addTo rfl fun name hname => ?_
    rw [route_of_hint hname] at harchive
    cases harchive
  · rename_i hloose
    refine ⟨?_, fun group hgroup => sublist_snoc (h.order group hgroup) input,
      h.loose.append (.refl _), fun other hother name hname => ?_⟩
    · rw [List.map_append, List.map_append, ← List.append_assoc]
      exact h.all.append_right _
    · obtain hother | hother := List.mem_append.mp hother
      · exact h.hints other hother name hname
      · obtain rfl := List.mem_singleton.mp hother
        rw [route_of_hint hname] at hloose
        cases hloose

theorem Sorts.run (h : Sorts before sorted) (inputs : List GroupInput) :
    Sorts (before ++ inputs) (inputs.foldl Sorted.place sorted) := by
  induction inputs generalizing before sorted with
  | nil => rwa [List.append_nil]
  | cons input inputs ih =>
    rw [List.append_cons]
    exact ih (h.place input)

/-! ## Containers -/

/-- A link that the group of a container does not take. -/
def Passes (name : Text) (input : GroupInput) : Prop :=
  input.route ≠ .hint name ∧
    ∀ base, input.route = .archive base → eqIgnoreAsciiCase name base = false

theorem Passes.place (h : Passes group.name input) (hgroup : group ∈ sorted.groups) :
    group ∈ (sorted.place input).groups := by
  rw [Sorted.place]
  split
  · rename_i hint hhint
    refine mem_addTo_of_not_fits hgroup (decide_eq_false fun hname => h.1 ?_)
    rw [hhint, hname]
  · exact List.mem_append_left _ hgroup
  · rename_i base harchive
    exact mem_addTo_of_not_fits hgroup (h.2 base harchive)
  · exact hgroup

end RDownloader
