import Mathlib.Data.List.TakeWhile
import RDownloader.Core.Lines
import RDownloader.Files.StorageRoot

/-!
# Paths as texts

A path as `std::path` has it on Unix: the text that is handed to the system, read as components.
-/

namespace RDownloader

namespace Path

/-- A piece between two slashes; those that are empty or a single dot say nothing. -/
def component (piece : Text) : Option (Component Text) :=
  if piece = [] ∨ piece = ['.'] then none
  else if piece = ['.', '.'] then some .parentDir
  else some (.normal piece)

/-- What a path says before its pieces. -/
def front (path : Text) : List (Component Text) :=
  if path.head? = some '/' then [.rootDir]
  else if path.takeWhile (· ≠ '/') = ['.'] then [.curDir]
  else []

/-- `Path::components`. -/
def components (path : Text) : List (Component Text) :=
  front path ++ (path.splitOn '/').filterMap component

/-- `PathBuf::push`. -/
def push (path name : Text) : Text :=
  if name.head? = some '/' then name
  else if path = [] ∨ path.getLast? = some '/' then path ++ name
  else path ++ '/' :: name

/-- `Path::starts_with`. -/
def startsWith (path base : Text) : Bool := (components base).isPrefixOf (components path)

/-- A text that is one component of a path. -/
structure IsName (name : Text) : Prop where
  nonempty : name ≠ []
  slash : '/' ∉ name
  ending : name.getLast? ≠ some '.'

/-- A text that is one component of a path, wherever it stands. -/
structure IsPlain (name : Text) : Prop where
  nonempty : name ≠ []
  slash : '/' ∉ name
  dot : name ≠ ['.']
  dots : name ≠ ['.', '.']

variable {path name : Text}

theorem IsName.isPlain (h : IsName name) : IsPlain name where
  nonempty := h.nonempty
  slash := h.slash
  dot heq := h.ending (by rw [heq]; rfl)
  dots heq := h.ending (by rw [heq]; rfl)

theorem component_of_isPlain (h : IsPlain name) : component name = some (.normal name) := by
  rw [component, if_neg (by simp [h.nonempty, h.dot]), if_neg h.dots]

theorem front_cons (c : Char) (path path' : Text)
    (h : (c :: path).takeWhile (· ≠ '/') = (c :: path').takeWhile (· ≠ '/')) :
    front (c :: path) = front (c :: path') := by
  rw [front, front, h]
  rfl

theorem takeWhile_append (path rest : Text) :
    (path ++ '/' :: rest).takeWhile (· ≠ '/') = path.takeWhile (· ≠ '/') := by
  induction path with
  | nil => rfl
  | cons c path ih => rw [List.cons_append, List.takeWhile_cons, List.takeWhile_cons, ih]

theorem front_append (h : path ≠ []) (rest : Text) : front (path ++ '/' :: rest) = front path := by
  obtain ⟨c, path, rfl⟩ := List.exists_cons_of_ne_nil h
  exact front_cons c _ _ (takeWhile_append (c :: path) rest)

/-- A name behind a slash does not change how a path begins. -/
theorem front_slash (path name : Text) : front (path ++ '/' :: name) = front (path ++ ['/']) := by
  cases path with
  | nil => rfl
  | cons c path => rw [front_append (List.cons_ne_nil _ _), front_append (List.cons_ne_nil _ _)]

theorem front_name (h : IsPlain name) : front name = [] := by
  have hhead : name.head? ≠ some '/' := fun hhead => h.slash (List.mem_of_head? hhead)
  have hfirst : name.takeWhile (· ≠ '/') = name := by
    rw [List.takeWhile_eq_self_iff]
    exact fun c hc => decide_eq_true fun heq => h.slash (heq ▸ hc)
  rw [front, if_neg hhead, hfirst, if_neg h.dot]

theorem components_of_isPlain (h : IsPlain name) : components name = [.normal name] := by
  rw [components, front_name h, List.splitOn_eq_singleton h.slash, List.filterMap_cons,
    component_of_isPlain h]
  rfl

theorem named_append (h : IsPlain name) (path : Text) :
    ((path ++ '/' :: name).splitOn '/').filterMap component =
      (path.splitOn '/').filterMap component ++ [.normal name] := by
  rw [List.splitOn_append_cons_self, List.splitOn_eq_singleton h.slash, List.filterMap_append,
    List.filterMap_cons, component_of_isPlain h]
  rfl

/-- A plain text that is pushed is one component more. -/
theorem components_push_plain (h : IsPlain name) (path : Text) :
    components (push path name) = components path ++ [.normal name] := by
  have hhead : name.head? ≠ some '/' := fun hhead => h.slash (List.mem_of_head? hhead)
  rw [push, if_neg hhead]
  split
  next hpath =>
    rcases hpath with rfl | hlast
    · rw [List.nil_append, components_of_isPlain h]
      rfl
    · obtain ⟨init, rfl⟩ := List.getLast?_eq_some_iff.mp hlast
      have hempty : ((init ++ ['/']).splitOn '/').filterMap component =
          (init.splitOn '/').filterMap component := by
        rw [List.splitOn_append_cons_self, List.splitOn_nil, List.filterMap_append]
        exact List.append_nil _
      rw [List.append_assoc, List.singleton_append, components, components, front_slash,
        named_append h, hempty, List.append_assoc]
  next hpath =>
    have hne : path ≠ [] := fun heq => hpath (.inl heq)
    rw [components, components, front_append hne, named_append h, List.append_assoc]

/-- A name that is pushed is one component more. -/
theorem components_push (h : IsName name) (path : Text) :
    components (push path name) = components path ++ [.normal name] :=
  components_push_plain h.isPlain path

/-- A text that is one component, and that component itself, is plain. -/
theorem isPlain_of_components (h : components name = [.normal name]) : IsPlain name := by
  have hpieces : (name.splitOn '/').filterMap component = [.normal name] ∧ front name = [] := by
    rw [components] at h
    rw [front] at h ⊢
    split at h
    next => cases h
    split at h
    next => cases h
    next hroot hdot =>
      rw [if_neg hroot, if_neg hdot]
      exact ⟨h, rfl⟩
  obtain ⟨hpieces, hfront⟩ := hpieces
  have hslash : '/' ∉ name := by
    have hmem : Component.normal name ∈ (name.splitOn '/').filterMap component := by
      rw [hpieces]
      exact List.mem_singleton_self _
    obtain ⟨piece, hpiece, hcomponent⟩ := List.mem_filterMap.mp hmem
    have hsame : piece = name := by
      rw [component] at hcomponent
      split at hcomponent
      next => cases hcomponent
      split at hcomponent
      next => cases hcomponent
      next => exact Component.normal.inj (Option.some.inj hcomponent)
    exact fun hmem => (Text.mem_of_mem_splitOn hpiece (hsame ▸ hmem)).2 rfl
  rw [List.splitOn_eq_singleton hslash, List.filterMap_cons] at hpieces
  refine ⟨fun heq => ?_, hslash, fun heq => ?_, fun heq => ?_⟩
  · subst heq
    cases hpieces
  · subst heq
    cases hpieces
  · subst heq
    cases hpieces

end Path
end RDownloader
