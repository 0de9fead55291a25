/-!
# Trees of directories, files and symbolic links

A place is the list of the names on the way to an entry, innermost first. A path is walked name by
name; a link on the way is walked in turn, a link at its end may lead to nothing.
-/

inductive PathStep (ν : Type u) where
  | name (name : ν)
  | parent
  deriving DecidableEq, Repr

inductive TreeEntry (ν : Type u) (ι : Type v) where
  | dir
  | file (inode : ι)
  | link (absolute : Bool) (target : List (PathStep ν))
  deriving DecidableEq, Repr

/-- Every entry stands in a directory. -/
structure LinkTree (ν : Type u) (ι : Type v) where
  entry : List ν → Option (TreeEntry ν ι)
  root : entry [] = some .dir
  parent : ∀ place name, (entry (name :: place)).isSome → entry place = some .dir

namespace LinkTree

variable {ν : Type u} {ι : Type v}

/-- Where a walk ends. -/
inductive Outcome (ν : Type u) where
  /-- At an entry that is no link. -/
  | reaches (place : List ν)
  /-- At a directory that does not hold the next name. -/
  | missing (place : List ν) (rest : List (PathStep ν))
  /-- At a link, the last name of the path, that leads to nothing in a directory. -/
  | dangling (place : List ν) (name : ν)
  | refused
  deriving DecidableEq, Repr

/-- A walk from a place with a number of links it may follow, and how many are left of it. -/
abbrev Walk (ν : Type u) := Nat → List ν → List (PathStep ν) → Outcome ν × Nat

variable (tree : LinkTree ν ι)

/-- What the end of a link's target makes of the link. -/
def atLink (last : Bool) : Outcome ν × Nat → Outcome ν × Nat
  | (.reaches place, links) => (.reaches place, links)
  | (.missing place [.name name], links) => (if last then .dangling place name else .refused, links)
  | (.dangling place name, links) => (if last then .dangling place name else .refused, links)
  | (_, links) => (.refused, links)

/-- One step of a walk; `follow` walks the target of a link. -/
def next (follow : Walk ν) (links : Nat) (place : List ν) (step : PathStep ν) (last : Bool) :
    Outcome ν × Nat :=
  match tree.entry place, step with
  | some .dir, .parent => (.reaches place.tail, links)
  | some .dir, .name name =>
    match tree.entry (name :: place), links with
    | none, links => (.missing place [.name name], links)
    | some (.link _ _), 0 => (.refused, 0)
    | some (.link absolute target), links + 1 =>
      atLink last (follow links (if absolute then [] else place) target)
    | some _, links => (.reaches (name :: place), links)
  | _, _ => (.refused, links)

def walkWith (follow : Walk ν) : Walk ν
  | links, place, [] => (.reaches place, links)
  | links, place, step :: rest =>
    match tree.next follow links place step rest.isEmpty with
    | (.reaches place, links) => walkWith follow links place rest
    | (.missing place path, links) => (.missing place (path ++ rest), links)
    | ended => ended

/-- Links that lead to links, to a depth. -/
def walk : Nat → Walk ν
  | 0 => tree.walkWith fun links _ _ => (.refused, links)
  | depth + 1 => tree.walkWith (walk depth)

/-- Where a path leads when at most so many links are followed. -/
def locate (links : Nat) (place : List ν) (path : List (PathStep ν)) : Outcome ν :=
  (tree.walk links links place path).1

variable {tree} {follow : Walk ν} {place : List ν} {path rest : List (PathStep ν)}

/-- An entry that is no link. -/
def Real (tree : LinkTree ν ι) (place : List ν) : Prop :=
  tree.entry place = some .dir ∨ ∃ inode, tree.entry place = some (.file inode)

theorem entry_tail (h : tree.entry place = some .dir) : tree.entry place.tail = some .dir := by
  cases place with
  | nil => exact h
  | cons name place => exact tree.parent place name (by rw [h]; rfl)

theorem atLink_reaches (h : atLink last ended = (.reaches place, left)) :
    ended = (.reaches place, left) := by
  unfold atLink at h
  split at h
  · exact h
  · split at h <;> cases h
  · split at h <;> cases h
  · cases h

theorem next_reaches (hfollow : ∀ links place path, tree.entry place = some .dir →
      ∀ found left, follow links place path = (.reaches found, left) → tree.Real found)
    (h : tree.next follow links place step last = (.reaches found, left)) : tree.Real found := by
  unfold next at h
  split at h
  · next hdir =>
    cases h
    exact .inl (entry_tail hdir)
  · next name hdir =>
    split at h
    · cases h
    · cases h
    · next absolute target links hlink =>
      have hstart : tree.entry (if absolute then [] else place) = some .dir := by
        split
        · exact tree.root
        · exact hdir
      exact hfollow _ _ _ hstart _ _ (atLink_reaches h)
    case h_4 given _ _ entry hentry hzero hsucc =>
      cases entry with
      | dir => cases h; exact .inl hentry
      | file inode => cases h; exact .inr ⟨inode, hentry⟩
      | link absolute target =>
        cases given with
        | zero => exact (hzero absolute target rfl rfl).elim
        | succ links => exact (hsucc absolute target links rfl rfl).elim
  · cases h

theorem walkWith_reaches (hfollow : ∀ links place path, tree.entry place = some .dir →
      ∀ found left, follow links place path = (.reaches found, left) → tree.Real found)
    (hplace : tree.Real place)
    (h : tree.walkWith follow links place path = (.reaches found, left)) : tree.Real found := by
  induction path generalizing links place with
  | nil =>
    cases h
    exact hplace
  | cons step rest ih =>
    rw [walkWith] at h
    split at h
    · next hnext => exact ih (next_reaches hfollow hnext) h
    · cases h
    · next hnot _ => exact (hnot _ _ h).elim

/-- What a walk reaches is a directory or a file. -/
theorem walk_reaches (hplace : tree.Real place)
    (h : tree.walk depth links place path = (.reaches found, left)) : tree.Real found := by
  induction depth generalizing links place path found left with
  | zero =>
    refine walkWith_reaches (fun links place path _ found left hfound => ?_) hplace h
    cases hfound
  | succ depth ih => exact walkWith_reaches (fun _ _ _ hdir _ _ => ih (.inl hdir)) hplace h

theorem next_real (follow : Walk ν) (hdir : tree.entry place = some .dir)
    (hreal : tree.Real (name :: place)) :
    tree.next follow links place (.name name) last = (.reaches (name :: place), links) := by
  rcases hreal with h | ⟨inode, h⟩
  · simp only [next, hdir, h]
  · simp only [next, hdir, h]

theorem walk_cons_real (hdir : tree.entry place = some .dir) (hreal : tree.Real (name :: place)) :
    tree.walk depth links place (.name name :: rest) =
      tree.walk depth links (name :: place) rest := by
  cases depth with
  | zero => rw [walk, walkWith, next_real _ hdir hreal]
  | succ depth => rw [walk, walkWith, next_real _ hdir hreal]

/-- The names of a place as a path from the top. -/
def pathTo (place : List ν) : List (PathStep ν) := place.reverse.map .name

theorem pathTo_cons (name : ν) (place : List ν) : pathTo (name :: place) = pathTo place ++ [.name name] := by
  simp [pathTo]

theorem Real.parent (h : tree.Real (name :: place)) : tree.entry place = some .dir :=
  tree.parent place name (by rcases h with h | ⟨inode, h⟩ <;> rw [h] <;> rfl)

/-- The path to a real entry is walked without following a link. -/
theorem walk_pathTo (h : tree.Real place) :
    tree.walk depth links [] (pathTo place ++ rest) = tree.walk depth links place rest := by
  induction place generalizing rest with
  | nil => rfl
  | cons name place ih =>
    rw [pathTo_cons, List.append_assoc, ih (.inl h.parent), List.singleton_append,
      walk_cons_real h.parent h]

theorem locate_pathTo (h : tree.Real place) :
    tree.locate links [] (pathTo place ++ rest) = tree.locate links place rest := by
  rw [locate, walk_pathTo h, locate]

/-! ### One step -/

/-- How the target of a link is walked at a depth. -/
def followAt (tree : LinkTree ν ι) : Nat → Walk ν
  | 0 => fun links _ _ => (.refused, links)
  | depth + 1 => tree.walk depth

theorem walk_eq (depth : Nat) : tree.walk depth = tree.walkWith (tree.followAt depth) := by
  cases depth <;> rfl

/-- What a step makes of an entry that is there. -/
theorem next_name (hdir : tree.entry place = some .dir) :
    tree.next follow links place (.name name) last =
      match tree.entry (name :: place), links with
      | none, links => (.missing place [.name name], links)
      | some (.link _ _), 0 => (.refused, 0)
      | some (.link absolute target), links + 1 =>
        atLink last (follow links (if absolute then [] else place) target)
      | some _, links => (.reaches (name :: place), links) := by
  simp only [next, hdir]

/-- Whether more of the path follows does not matter to a step that reaches something. -/
theorem next_of_reaches (hdir : tree.entry place = some .dir)
    (h : tree.next follow links place (.name name) last = (.reaches found, left)) :
    tree.next follow links place (.name name) other = (.reaches found, left) := by
  rw [next_name hdir] at h ⊢
  split at h
  · cases h
  · cases h
  · rw [atLink_reaches h]
    rfl
  · exact h

/-- A step that reaches nothing, with more of the path to come. -/
theorem next_stuck (hdir : tree.entry place = some .dir)
    (h : ∀ found left, tree.next follow links place (.name name) true ≠ (.reaches found, left)) :
    tree.next follow links place (.name name) false = (.missing place [.name name], links) ∨
      (tree.next follow links place (.name name) false).1 = .refused := by
  rw [next_name hdir] at h ⊢
  split
  · exact .inl rfl
  · exact .inr rfl
  · next absolute target links hlink =>
    right
    simp only [hlink] at h
    generalize follow links (if absolute then [] else place) target = ended at h ⊢
    unfold atLink at h ⊢
    split
    · exact (h _ _ rfl).elim
    · rfl
    · rfl
    · rfl
  · next given _ _ entry hentry hzero hsucc => exact (h (name :: place) given (by simp_all)).elim

theorem locate_nil : tree.locate links place [] = .reaches place := by
  rw [locate, walk_eq]
  rfl

/-- A path of one name reaches what its step reaches. -/
theorem locate_singleton
    (h : tree.next (tree.followAt links) links place step true = (.reaches found, left)) :
    tree.locate links place [step] = .reaches found := by
  rw [locate, walk_eq, walkWith, List.isEmpty_nil, h]
  rfl

theorem atLink_ne_missing : atLink last ended ≠ (.missing place path, left) := by
  unfold atLink
  split
  · exact nofun
  · split <;> exact nofun
  · split <;> exact nofun
  · exact nofun

/-- What a path of one name misses is that name. -/
theorem locate_missing (hplace : tree.Real place)
    (h : tree.locate links place [.name name] = .missing found rest) :
    found = place ∧ rest = [.name name] := by
  rw [locate, walk_eq, walkWith, List.isEmpty_nil] at h
  rcases hplace with hdir | ⟨inode, hfile⟩
  · rw [next_name hdir] at h
    split at h
    · next hnext =>
      cases h
    · next hnext =>
      cases h
      split at hnext
      · cases hnext
        exact ⟨rfl, rfl⟩
      · cases hnext
      · exact (atLink_ne_missing hnext).elim
      · cases hnext
    · next hnot => exact (hnot _ _ _ (Prod.ext h rfl)).elim
  · simp only [next, hfile] at h
    cases h

/-- Where a walk ends that one of its names stops, with more of the path to come. -/
theorem locate_stuck (hplace : tree.Real place)
    (hstuck : ∀ found, tree.locate links place [.name name] ≠ .reaches found) (hrest : rest ≠ []) :
    tree.locate links place (.name name :: rest) = .missing place (.name name :: rest) ∨
      tree.locate links place (.name name :: rest) = .refused := by
  have hlast : rest.isEmpty = false := List.isEmpty_eq_false_iff.mpr hrest
  rw [locate, walk_eq, walkWith, hlast]
  rcases hplace with hdir | ⟨inode, hfile⟩
  · have hnext : ∀ found left, tree.next (tree.followAt links) links place (.name name) true ≠
        (.reaches found, left) := fun found left h => hstuck found (locate_singleton h)
    rcases next_stuck hdir hnext with h | h
    · rw [h]
      exact .inl rfl
    · generalize tree.next (tree.followAt links) links place (.name name) false = ended at h
      obtain ⟨outcome, left⟩ := ended
      cases h
      exact .inr rfl
  · have : tree.next (tree.followAt links) links place (.name name) false = (.refused, links) := by
      simp only [next, hfile]
    rw [this]
    exact .inr rfl

end LinkTree
