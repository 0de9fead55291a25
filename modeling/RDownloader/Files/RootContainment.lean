import RDownloader.Files.StorageRoot

/-!
# Where what a storage root resolves is written

What exists is made canonical before it is passed, so a link can lead out only as the last name,
and only to an entry that is not there.
-/

namespace RDownloader

variable {ν : Type u} {ι : Type v} {tree : LinkTree ν ι} {links : Nat}
  {root : StorageRoot tree}

open LinkTree

/-- The names of a path lead from one entry inside the root to the next. -/
inductive Inside (root : StorageRoot tree) (links : Nat) : List (Component ν) → List ν → Prop
  | root : Inside root links [] root.path
  | step {init : List (Component ν)} {place found : List ν} {segment : ν}
      (h : Inside root links init place)
      (hfound : tree.locate links place [.name segment] = .reaches found)
      (hinside : root.path <:+ found) : Inside root links (init ++ [.normal segment]) found

/-- The last name of a path is a link that leads out of the root, to an entry that is not there. -/
def LeadsOut (root : StorageRoot tree) (links : Nat) (relative : List (Component ν)) : Prop :=
  ∃ init, ∃ segment : ν, ∃ place dir name, relative = init ++ [.normal segment] ∧
    Inside root links init place ∧
    tree.locate links place [.name segment] = .dangling dir name ∧ ¬root.path <:+ name :: dir

/-- Whatever a resolved path is written to lies inside the root. -/
def Contained (root : StorageRoot tree) (links : Nat) (result : Except ResolveError (List ν)) :
    Prop :=
  ∀ path landed, result = .ok path → lands tree links path = some landed → root.path <:+ landed

namespace Inside

theorem real (h : Inside root links init place) : tree.Real place := by
  induction h with
  | root => exact .inl root.canonical
  | step _ hfound _ ih =>
    obtain ⟨left, hwalk⟩ : ∃ left, tree.walk links links _ _ = (.reaches _, left) :=
      ⟨_, Prod.ext hfound rfl⟩
    exact walk_reaches ih hwalk

theorem suffix (h : Inside root links init place) : root.path <:+ place := by
  cases h with
  | root => exact List.suffix_refl _
  | step _ _ hinside => exact hinside

theorem unique (h : Inside root links init place) (h' : Inside root links init other) :
    place = other := by
  induction h generalizing other with
  | root =>
    generalize hinit : ([] : List (Component ν)) = init at h'
    cases h' with
    | root => rfl
    | step => simp at hinit
  | step h hfound hinside ih =>
    generalize hinit : _ ++ [_] = init at h'
    cases h' with
    | root => simp at hinit
    | step h' hfound' _ =>
      obtain ⟨rfl, hsegment⟩ := List.append_inj' hinit rfl
      cases hsegment
      obtain rfl := ih h'
      cases hfound.symm.trans hfound'
      rfl

/-- What led to the last place. -/
theorem last (h : Inside root links (init ++ [component]) place) :
    ∃ segment start, component = .normal segment ∧ Inside root links init start ∧
      tree.locate links start [.name segment] = .reaches place ∧ root.path <:+ place := by
  generalize hpath : init ++ [component] = path at h
  cases h with
  | root => simp at hpath
  | step h hfound hinside =>
    obtain ⟨rfl, hcomponent⟩ := List.append_inj' hpath rfl
    cases hcomponent
    exact ⟨_, _, rfl, h, hfound, hinside⟩

/-- What leads inside starts inside. -/
theorem of_append {rest : List (Component ν)} (h : Inside root links (init ++ rest) place) :
    ∃ start, Inside root links init start := by
  generalize hpath : init ++ rest = path at h
  induction h generalizing rest with
  | root =>
    obtain ⟨rfl, -⟩ := List.append_eq_nil_iff.mp hpath
    exact ⟨_, .root⟩
  | step h hfound hinside ih =>
    rcases List.eq_nil_or_concat rest with rfl | ⟨rest, last, rfl⟩
    · rw [List.append_nil] at hpath
      rw [hpath]
      exact ⟨_, .step h hfound hinside⟩
    · rw [List.concat_eq_append, ← List.append_assoc] at hpath
      exact ih (List.append_inj' hpath rfl).1

end Inside

/-! ## One name after another -/

variable {place : List ν} {segment : ν}

theorem pathTo_append (more : List ν) :
    pathTo (more ++ segment :: place) = pathTo place ++ .name segment :: pathTo more := by
  simp [pathTo]

/-- What a name pushed to a real path is made canonical to. -/
theorem canonicalize_cons (h : tree.Real place) :
    canonicalize tree links (segment :: place) =
      reached (tree.locate links place [.name segment]) := by
  rw [canonicalize, pathTo_cons, locate_pathTo h]

theorem lands_cons (h : tree.Real place) :
    lands tree links (segment :: place) = landing (tree.locate links place [.name segment]) := by
  rw [lands, pathTo_cons, locate_pathTo h]

/-- A real place is written itself. -/
theorem lands_real (h : tree.Real place) : lands tree links place = some place := by
  rw [lands, ← List.append_nil (pathTo place), locate_pathTo h, locate_nil]
  rfl

theorem stepNames_pathTo (more : List ν) : stepNames (pathTo more) = some more.reverse := by
  rw [pathTo]
  induction more.reverse with
  | nil => rfl
  | cons name names ih => rw [List.map_cons, stepNames, ih]; rfl

/-- Where a longer path ends behind a name that leads nowhere. -/
theorem locate_append_stuck (hplace : tree.Real place)
    (hstuck : ∀ found, tree.locate links place [.name segment] ≠ .reaches found) {more : List ν}
    (hmore : more ≠ []) :
    tree.locate links [] (pathTo (more ++ segment :: place)) =
        .missing place (.name segment :: pathTo more) ∨
      tree.locate links [] (pathTo (more ++ segment :: place)) = .refused := by
  have hpath : pathTo more ≠ [] := by simpa [pathTo] using hmore
  rw [pathTo_append, locate_pathTo hplace]
  exact locate_stuck hplace hstuck hpath

/-- Behind a name that leads nowhere, a path is written where it says or not at all. -/
theorem lands_stuck (hplace : tree.Real place)
    (hstuck : ∀ found, tree.locate links place [.name segment] ≠ .reaches found)
    {more : List ν} (hmore : more ≠ []) (h : lands tree links (more ++ segment :: place) = some landed) :
    landed = more ++ segment :: place := by
  rw [lands] at h
  rcases locate_append_stuck hplace hstuck hmore with hended | hended
  · rw [hended, landing, stepNames, stepNames_pathTo] at h
    cases h
    simp
  · rw [hended] at h
    cases h

/-! ## Paths that lead out -/

theorem not_leadsOut_of_inside (h : Inside root links relative place) :
    ¬LeadsOut root links relative := by
  rintro ⟨init, segment, before, dir, name, rfl, hinit, hdangling, -⟩
  obtain ⟨segment, start, ⟨⟩, hstart, hfound, -⟩ := h.last
  obtain rfl := hinit.unique hstart
  cases hdangling.symm.trans hfound

/-- A path that leads out leads inside up to its last name. -/
theorem LeadsOut.inside {component next : Component ν} {rest : List (Component ν)}
    (h : LeadsOut root links (init ++ component :: next :: rest)) :
    ∃ place, Inside root links (init ++ [component]) place := by
  obtain ⟨path, segment, place, dir, name, hpath, hinit, -⟩ := h
  rcases List.eq_nil_or_concat (next :: rest) with hnil | ⟨middle, last, hmiddle⟩
  · cases hnil
  · rw [hmiddle, List.concat_eq_append, List.append_cons, ← List.append_assoc] at hpath
    obtain ⟨rfl, -⟩ := List.append_inj' hpath rfl
    exact hinit.of_append

theorem not_leadsOut_forbidden {component : Component ν} {rest : List (Component ν)}
    (h : ∀ segment, component ≠ .normal segment) :
    ¬LeadsOut root links (init ++ component :: rest) := by
  intro hout
  cases rest with
  | nil =>
    obtain ⟨path, segment, place, dir, name, hpath, -⟩ := hout
    obtain ⟨-, hcomponent⟩ := List.append_inj' hpath rfl
    exact h segment (List.cons.inj hcomponent).1
  | cons next rest =>
    obtain ⟨place, hinside⟩ := hout.inside
    obtain ⟨segment, -, hcomponent, -⟩ := hinside.last
    exact h segment hcomponent

/-- A path that leads out through a name passes it, unless the name is its last. -/
theorem LeadsOut.step (h : Inside root links init place) {rest : List (Component ν)}
    (hout : LeadsOut root links (init ++ .normal segment :: rest)) :
    (rest = [] ∧ ∃ dir name, tree.locate links place [.name segment] = .dangling dir name ∧
      ¬root.path <:+ name :: dir) ∨
    ∃ found, tree.locate links place [.name segment] = .reaches found ∧ root.path <:+ found := by
  cases rest with
  | nil =>
    obtain ⟨path, last, start, dir, name, hpath, hinit, hdangling, hleft⟩ := hout
    obtain ⟨rfl, hcomponent⟩ := List.append_inj' hpath rfl
    cases hcomponent
    obtain rfl := hinit.unique h
    exact .inl ⟨rfl, dir, name, hdangling, hleft⟩
  | cons next rest =>
    obtain ⟨found, hinside⟩ := hout.inside
    obtain ⟨last, start, ⟨⟩, hstart, hfound, hsuffix⟩ := hinside.last
    obtain rfl := hstart.unique h
    exact .inr ⟨found, hfound, hsuffix⟩

/-! ## The loop -/

variable [DecidableEq ν]

/-- Behind a name that leads nowhere the loop takes the other names as they are. -/
theorem resolveFrom_stuck (hplace : tree.Real place)
    (hstuck : ∀ found, tree.locate links place [.name segment] ≠ .reaches found)
    {rest : List (Component ν)} {more : List ν}
    (h : root.resolveFrom links (more ++ segment :: place) rest = .ok path) :
    ∃ later, path = later ++ more ++ segment :: place ∧ (rest ≠ [] → later ≠ []) := by
  induction rest generalizing more with
  | nil =>
    rw [StorageRoot.resolveFrom] at h
    split at h
    · cases h
      exact ⟨[], rfl, fun hne => (hne rfl).elim⟩
    · cases h
  | cons component rest ih =>
    cases component with
    | normal name =>
      have hcanonical : canonicalize tree links (name :: (more ++ segment :: place)) = none := by
        rw [canonicalize, ← List.cons_append]
        rcases locate_append_stuck hplace hstuck (List.cons_ne_nil name more) with hended | hended
        · rw [hended]; rfl
        · rw [hended]; rfl
      rw [StorageRoot.resolveFrom, hcanonical] at h
      obtain ⟨later, rfl, -⟩ := @ih (name :: more) h
      exact ⟨later ++ [name], by simp, fun _ => by simp⟩
    | curDir | parentDir | rootDir => cases h

/-- Behind a name that leads nowhere, only a link as the last name leads out. -/
theorem contained_stuck (h : Inside root links init place)
    (hstuck : ∀ found, tree.locate links place [.name segment] ≠ .reaches found)
    (rest : List (Component ν)) :
    Contained root links (root.resolveFrom links (segment :: place) rest) ↔
      ¬LeadsOut root links (init ++ .normal segment :: rest) := by
  have hsuffix : root.path <:+ segment :: place := h.suffix.trans (List.suffix_cons ..)
  cases rest with
  | nil =>
    rw [StorageRoot.resolveFrom, if_pos hsuffix]
    constructor
    · intro hcontained hout
      rcases hout.step h with ⟨-, dir, name, hdangling, hleft⟩ | ⟨found, hfound, -⟩
      · refine hleft (hcontained _ _ rfl ?_)
        rw [lands_cons h.real, hdangling]
        rfl
      · exact hstuck found hfound
    · rintro hnot path landed ⟨⟩ hlands
      rw [lands_cons h.real] at hlands
      cases hended : tree.locate links place [.name segment] with
      | reaches found => exact (hstuck found hended).elim
      | missing found rest =>
        obtain ⟨rfl, rfl⟩ := locate_missing h.real hended
        rw [hended] at hlands
        cases hlands
        exact hsuffix
      | dangling dir name =>
        rw [hended] at hlands
        cases hlands
        exact Classical.not_not.mp fun hleft =>
          hnot ⟨init, segment, place, dir, name, rfl, h, hended, hleft⟩
      | refused =>
        rw [hended] at hlands
        cases hlands
  | cons next rest =>
    refine iff_of_true (fun path landed hpath hlands => ?_) fun hout => ?_
    · obtain ⟨later, rfl, hlater⟩ := resolveFrom_stuck h.real hstuck
        (show root.resolveFrom links ([] ++ segment :: place) (next :: rest) = .ok path from hpath)
      rw [List.append_nil] at hlands
      obtain rfl := lands_stuck h.real hstuck (hlater (List.cons_ne_nil _ _)) hlands
      exact hsuffix.trans (List.suffix_append ..)
    · rcases hout.step h with ⟨hnil, -⟩ | ⟨found, hfound, -⟩
      · cases hnil
      · exact hstuck found hfound

/-- From a place inside, what the loop resolves is contained unless the path leads out. -/
theorem contained_resolveFrom (h : Inside root links init place) (rest : List (Component ν)) :
    Contained root links (root.resolveFrom links place rest) ↔ ¬LeadsOut root links (init ++ rest) := by
  induction rest generalizing init place with
  | nil =>
    rw [List.append_nil]
    refine iff_of_true (fun path landed hpath hlands => ?_) (not_leadsOut_of_inside h)
    rw [StorageRoot.resolveFrom, if_pos h.suffix] at hpath
    cases hpath
    cases (lands_real h.real).symm.trans hlands
    exact h.suffix
  | cons component rest ih =>
    cases component with
    | curDir | parentDir | rootDir =>
      exact iff_of_true (fun path landed hpath => nomatch hpath) (not_leadsOut_forbidden nofun)
    | normal segment =>
      have hcanonical : canonicalize tree links (segment :: place) = _ := canonicalize_cons h.real
      cases hstep : tree.locate links place [.name segment] with
      | reaches found =>
        rw [hstep] at hcanonical
        rw [StorageRoot.resolveFrom, hcanonical]
        dsimp only [reached]
        split
        · next hinside =>
          rw [List.append_cons]
          exact ih (.step h hstep hinside)
        · next houtside =>
          refine iff_of_true (fun path landed hpath => nomatch hpath) fun hout => ?_
          rcases hout.step h with ⟨-, dir, name, hdangling, -⟩ | ⟨other, hfound, hsuffix⟩
          · cases hstep.symm.trans hdangling
          · cases hstep.symm.trans hfound
            exact houtside hsuffix
      | missing | dangling | refused =>
        rw [hstep] at hcanonical
        rw [StorageRoot.resolveFrom, hcanonical]
        exact contained_stuck h (fun found hfound => nomatch hstep.symm.trans hfound) rest

/-- What a root resolves is written inside it, unless the path ends at a link that leads out to an
entry that is not there. -/
theorem resolve_contained_iff (root : StorageRoot tree) (links : Nat)
    (relative : List (Component ν)) :
    Contained root links (root.resolve links relative) ↔ ¬LeadsOut root links relative := by
  rw [StorageRoot.resolve]
  split
  · next hempty =>
    subst hempty
    have hself : root.resolveFrom links root.path [] = .ok root.path :=
      if_pos (List.suffix_refl _)
    rw [← hself]
    exact contained_resolveFrom .root []
  · split
    · next habsolute =>
      obtain ⟨rest, rfl⟩ : ∃ rest, relative = .rootDir :: rest := by
        cases relative with
        | nil => cases habsolute
        | cons component rest => cases habsolute; exact ⟨rest, rfl⟩
      rw [← List.nil_append (.rootDir :: rest)]
      exact iff_of_true (fun path landed hpath => nomatch hpath) (not_leadsOut_forbidden nofun)
    · exact contained_resolveFrom .root relative

/-! ### A root with a link that leads to nothing -/

inductive Name where
  | downloads
  | etc
  | cron
  | link
  deriving DecidableEq, Repr

/-- `/downloads` with a link to `/etc/cron`, which is not there. -/
def plantedEntry : List Name → Option (TreeEntry Name Nat)
  | [] | [.downloads] | [.etc] => some .dir
  | [.link, .downloads] => some (.link true [.name .etc, .name .cron])
  | _ => none

def planted : LinkTree Name Nat where
  entry := plantedEntry
  root := rfl
  parent place name h := by
    unfold plantedEntry at h ⊢
    split at h <;> simp_all

def downloads : StorageRoot planted where
  path := [.downloads]
  canonical := rfl

/-- The link passes, and the file is written beside the root. -/
theorem dangling_link_followed :
    downloads.resolve 40 [.normal .link] = .ok [.link, .downloads] ∧
      lands planted 40 [.link, .downloads] = some [.cron, .etc] ∧
      ¬downloads.path <:+ [Name.cron, .etc] := by
  exact ⟨rfl, rfl, by decide⟩

end RDownloader
