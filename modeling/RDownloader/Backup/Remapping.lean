import RDownloader.Backup.Places

/-!
# Where a remap puts a path

What is moved lies below the new place of the deepest root it lay in, under the names it had there.
Spellings of one Windows place share a verdict when the parser finds their lead-ins and
`str::to_lowercase` tells their letters alike.
-/

namespace RDownloader.Backup

open ForeignPath

/-! ## Below a root -/

/-- `path` lies at `root` or under `names` below it. -/
structure Below (casing : Casing) (path root : ForeignPath) (names : List Text) : Prop where
  style : path.style = root.style
  volume : path.volume = root.volume
  components : ∃ front, path.components = front ++ names ∧
    List.Forall₂ (fun left right => same casing path.style left right = true) front root.components

variable {casing : Casing} {path root : ForeignPath} {names : List Text}

theorem below_iff : path.below casing root = some names ↔ Below casing path root names := by
  constructor
  · intro h
    rw [below] at h
    split at h
    next => cases h
    next hvolume =>
      rw [not_or, not_or, ne_eq, ne_eq, Decidable.not_not, Decidable.not_not, Nat.not_lt] at hvolume
      obtain ⟨hstyle, hvolume, hlength⟩ := hvolume
      split at h
      next hall =>
        cases h
        refine ⟨hstyle, hvolume, path.components.take root.components.length,
          (List.take_append_drop ..).symm, ?_⟩
        rw [List.forall₂_iff_zip]
        refine ⟨List.length_take_of_le hlength, fun {left right} hmem => ?_⟩
        rw [List.zip_eq_zip_take_min, Nat.min_eq_right hlength, List.take_length] at hall
        exact List.all_eq_true.mp hall (left, right) hmem
      next => cases h
  · rintro ⟨hstyle, hvolume, front, hfront, hsame⟩
    have hlength := hsame.length_eq
    rw [below, if_neg, if_pos, hfront, ← hlength, List.drop_left]
    · rw [List.forall₂_iff_zip] at hsame
      rw [List.zip_eq_zip_take_min, hfront, List.length_append, ← hlength,
        Nat.min_eq_right (Nat.le_add_right ..), List.take_left, hlength, List.take_length,
        List.all_eq_true]
      exact fun pair hpair => hsame.2 hpair
    · rw [hfront, List.length_append]
      simp only [hstyle, hvolume, ne_eq, not_true_eq_false, false_or]
      omega

theorem mem_rootsAbove {mappings : List (RootMapping casing)} {mapping : RootMapping casing} :
    (mapping, names) ∈ rootsAbove path mappings ↔
      mapping ∈ mappings ∧ Below casing path mapping.source names := by
  rw [rootsAbove, List.mem_filterMap]
  constructor
  · rintro ⟨other, hother, hsome⟩
    obtain ⟨names', hbelow, heq⟩ := Option.map_eq_some_iff.mp hsome
    cases heq
    exact ⟨hother, below_iff.mp hbelow⟩
  · rintro ⟨hmem, hbelow⟩
    exact ⟨mapping, hmem, by rw [below_iff.mpr hbelow, Option.map_some]⟩

/-! ## The names pushed -/

theorem pushNames_of_plain {names : List Text} (h : ∀ name ∈ names, Path.IsPlain name)
    (target : Text) : ∃ moved, pushNames target names = some moved ∧
      Path.components moved = Path.components target ++ names.map .normal := by
  induction names generalizing target with
  | nil => exact ⟨target, rfl, (List.append_nil _).symm⟩
  | cons name names ih =>
    obtain ⟨hname, hnames⟩ := List.forall_mem_cons.mp h
    obtain ⟨moved, hmoved, hcomponents⟩ := ih hnames (Path.push target name)
    refine ⟨moved, ?_, ?_⟩
    · rw [pushNames, if_pos (Path.components_of_isPlain hname), hmoved]
    · rw [hcomponents, Path.components_push_plain hname, List.append_assoc]
      rfl

theorem pushNames_of_not_plain {names : List Text} (h : ¬∀ name ∈ names, Path.IsPlain name)
    (target : Text) : pushNames target names = none := by
  induction names generalizing target with
  | nil => exact absurd (List.forall_mem_nil _) h
  | cons name names ih =>
    rw [pushNames]
    split
    next hname =>
      refine ih (fun hnames => h ?_) _
      exact List.forall_mem_cons.mpr ⟨Path.isPlain_of_components hname, hnames⟩
    next => rfl

/-! ## Verdicts -/

variable {mappings : List (RootMapping casing)} {mapping : RootMapping casing} {value moved : Text}

theorem remap_of_none (h : deepest (rootsAbove path mappings) = none)
    (hparse : parse casing value = some path) : remap value mappings = .unmapped := by
  rw [remap, hparse]
  dsimp only
  rw [h]

/-- A path whose names are plain is moved under them. -/
theorem remap_of_plain (hparse : parse casing value = some path)
    (h : deepest (rootsAbove path mappings) = some (mapping, names))
    (hplain : ∀ name ∈ names, Path.IsPlain name) :
    ∃ moved, remap value mappings = .moved moved ∧
      Path.components moved = Path.components mapping.target ++ names.map .normal := by
  obtain ⟨moved, hmoved, hcomponents⟩ := pushNames_of_plain hplain mapping.target
  have hinside : Path.startsWith moved mapping.target = true := by
    rw [Path.startsWith, hcomponents, List.isPrefixOf_iff_prefix]
    exact List.prefix_append ..
  refine ⟨moved, ?_, hcomponents⟩
  rw [remap, hparse]
  dsimp only
  rw [h]
  dsimp only
  rw [hmoved]
  exact if_pos hinside

theorem remap_of_not_plain (hparse : parse casing value = some path)
    (h : deepest (rootsAbove path mappings) = some (mapping, names))
    (hplain : ¬∀ name ∈ names, Path.IsPlain name) : remap value mappings = .escapes := by
  rw [remap, hparse]
  dsimp only
  rw [h]
  dsimp only
  rw [pushNames_of_not_plain hplain]

/-- `moved` is the place of `path` under the deepest root it lies in. -/
structure MovedBelow (path : ForeignPath) (mappings : List (RootMapping casing)) (moved : Text)
    (mapping : RootMapping casing) (names : List Text) : Prop where
  mem : mapping ∈ mappings
  below : Below casing path mapping.source names
  deepest : ∀ other ∈ mappings, ∀ names', Below casing path other.source names' →
    other.source.depth ≤ mapping.source.depth
  plain : ∀ name ∈ names, Path.IsPlain name
  components : Path.components moved = Path.components mapping.target ++ names.map .normal

theorem movedBelow_of_remap (h : remap value mappings = .moved moved) :
    ∃ path mapping names, parse casing value = some path ∧
      MovedBelow path mappings moved mapping names := by
  cases hparse : parse casing value with
  | none =>
    rw [remap, hparse] at h
    cases h
  | some path =>
    cases hdeepest : deepest (rootsAbove path mappings) with
    | none =>
      rw [remap_of_none hdeepest hparse] at h
      cases h
    | some root =>
      obtain ⟨mapping, names⟩ := root
      by_cases hplain : ∀ name ∈ names, Path.IsPlain name
      · obtain ⟨moved', hmoved, hcomponents⟩ := remap_of_plain hparse hdeepest hplain
        rw [hmoved] at h
        cases h
        have hmem := mem_rootsAbove.mp (List.mem_reverse.mp (List.argmax_mem hdeepest))
        refine ⟨path, mapping, names, rfl, hmem.1, hmem.2, fun other hother names' hbelow => ?_,
          hplain, hcomponents⟩
        have hroot := List.mem_reverse.mpr (mem_rootsAbove.mpr ⟨hother, hbelow⟩)
        exact List.le_of_mem_argmax (f := fun root => root.1.source.depth) hroot hdeepest
      · rw [remap_of_not_plain hparse hdeepest hplain] at h
        cases h

/-! ## Spellings -/

/-- The full stop is the lower case of itself alone. -/
structure NameCasing extends Casing where
  simple_dot : ∀ c, simple c = '.' ↔ c = '.'

def Volume.letters (casing : Casing) : Volume → Volume
  | drive letter => drive (casing.simple letter)
  | share server name => share (server.map casing.simple) (name.map casing.simple)

/-- A place with its letters in lower case, each by itself. -/
def Place.letters (casing : Casing) (place : Place) : Place where
  volume := place.volume.letters casing
  names := place.names.map (List.map casing.simple)

/-- `str::to_lowercase` tells the volumes and the names alike. -/
def LowerAgree (casing : Casing) (place place' : Place) : Prop :=
  casing.toLowercase place.volume.text = casing.toLowercase place'.volume.text ∧
    place.names.map casing.toLowercase = place'.names.map casing.toLowercase

instance (casing : Casing) (place place' : Place) : Decidable (LowerAgree casing place place') :=
  inferInstanceAs (Decidable (_ ∧ _))

/-- One verdict for two paths: if they are moved, below one root and to names of one spelling but
for the case. -/
inductive SameVerdict (mappings : List (RootMapping casing)) : Remapped → Remapped → Prop
  | moved {mapping : RootMapping casing} {moved moved' : Text} {names names' : List Text} :
      mapping ∈ mappings →
      Path.components moved = Path.components mapping.target ++ names.map .normal →
      Path.components moved' = Path.components mapping.target ++ names'.map .normal →
      names.map (List.map casing.simple) = names'.map (List.map casing.simple) →
      SameVerdict mappings (.moved moved) (.moved moved')
  | unmapped : SameVerdict mappings .unmapped .unmapped
  | escapes : SameVerdict mappings .escapes .escapes

section

variable {casing : NameCasing} {place place' : Place}

theorem isPlain_of_letters {name name' : Text}
    (h : name.map casing.simple = name'.map casing.simple) (hplain : Path.IsPlain name) :
    Path.IsPlain name' := by
  have hdots (n : Nat) (heq : name' = List.replicate n '.') : name = List.replicate n '.' := by
    rw [heq, List.map_replicate, (casing.simple_dot '.').mpr rfl, List.eq_replicate_iff,
      List.length_map, List.forall_mem_map] at h
    exact List.eq_replicate_iff.mpr ⟨h.1, fun c hc => (casing.simple_dot c).mp (h.2 c hc)⟩
  refine ⟨fun heq => ?_, fun hslash => ?_, ?_, ?_⟩
  · rw [heq, List.map_nil, List.map_eq_nil_iff] at h
    exact hplain.nonempty h
  · have hmem : '/' ∈ name'.map casing.simple :=
      List.mem_map.mpr ⟨'/', hslash, (casing.simple_eq_mark '/' '/' (by decide)).mpr rfl⟩
    rw [← h] at hmem
    obtain ⟨c, hc, heq⟩ := List.mem_map.mp hmem
    rw [casing.simple_eq_mark c '/' (by decide)] at heq
    exact hplain.slash (heq ▸ hc)
  · exact fun heq => hplain.dot (hdots 1 heq)
  · exact fun heq => hplain.dots (hdots 2 heq)

theorem forall_isPlain_of_letters {names names' : List Text}
    (h : names.map (List.map casing.simple) = names'.map (List.map casing.simple))
    (hplain : ∀ name ∈ names, Path.IsPlain name) : ∀ name ∈ names', Path.IsPlain name := by
  intro name' hname'
  have hmem := List.mem_map_of_mem (f := List.map casing.simple) hname'
  rw [← h] at hmem
  obtain ⟨name, hname, hletters⟩ := List.mem_map.mp hmem
  exact isPlain_of_letters hletters (hplain name hname)

/-- `Iterator::max_by_key` on what the key alone depends on. -/
theorem argmax_map {α β γ : Type*} [LinearOrder γ] (f : β → γ) (g : α → β) (list : List α) :
    (list.map g).argmax f = (list.argmax (f ∘ g)).map g := by
  induction list with
  | nil => rfl
  | cons a list ih =>
    rw [List.map_cons, List.argmax_cons, List.argmax_cons, ih]
    cases list.argmax (f ∘ g) with
    | none => rfl
    | some b =>
      dsimp only [Option.map_some, Function.comp_apply]
      split <;> rfl

/-- Paths the parser has alike but for the letters of their names. -/
structure Alike (casing : Casing) (path path' : ForeignPath) : Prop where
  windows : path.style = .windows
  style : path'.style = path.style
  volume : path'.volume = path.volume
  components : path'.components.map casing.toLowercase = path.components.map casing.toLowercase

variable {path path' : ForeignPath} {mappings : List (RootMapping casing.toCasing)}

theorem below_of_windows {casing : Casing} (h : path.style = .windows) (root : ForeignPath) :
    path.below casing root =
      if .windows ≠ root.style ∨ path.volume ≠ root.volume ∨
          (path.components.map casing.toLowercase).length < root.components.length then none
      else if ((path.components.map casing.toLowercase).zip root.components).all
          fun pair => pair.1 = casing.toLowercase pair.2 then
        some (path.components.drop root.components.length)
      else none := by
  rw [below, h, List.length_map, List.zip_map_left, List.all_map]
  rfl

theorem Alike.below (h : Alike casing.toCasing path path') (root : ForeignPath) :
    path'.below casing.toCasing root = (path.below casing.toCasing root).map fun _ =>
      path'.components.drop root.components.length := by
  rw [below_of_windows h.windows, below_of_windows (h.style.trans h.windows), h.volume,
    h.components]
  split
  next => rfl
  next =>
    split
    next => rfl
    next => rfl

theorem Alike.rootsAbove (h : Alike casing.toCasing path path') :
    rootsAbove path' mappings = (rootsAbove path mappings).map fun root =>
      (root.1, path'.components.drop root.1.source.depth) := by
  rw [Backup.rootsAbove, Backup.rootsAbove, List.map_filterMap]
  congr 1
  funext mapping
  rw [h.below, Option.map_map, Option.map_map]
  rfl

theorem Alike.deepest (h : Alike casing.toCasing path path') :
    deepest (Backup.rootsAbove path' mappings) =
      (deepest (Backup.rootsAbove path mappings)).map fun root =>
        (root.1, path'.components.drop root.1.source.depth) := by
  rw [h.rootsAbove, Backup.deepest, ← List.map_reverse, argmax_map]
  rfl

theorem names_of_deepest {casing : Casing} {path : ForeignPath}
    {mappings : List (RootMapping casing)} {mapping : RootMapping casing} {names : List Text}
    (h : deepest (rootsAbove path mappings) = some (mapping, names)) :
    mapping ∈ mappings ∧ Below casing path mapping.source names ∧
      names = path.components.drop mapping.source.depth := by
  obtain ⟨hmem, hbelow⟩ := mem_rootsAbove.mp (List.mem_reverse.mp (List.argmax_mem h))
  obtain ⟨front, hfront, hsame⟩ := hbelow.components
  refine ⟨hmem, hbelow, ?_⟩
  rw [hfront, ForeignPath.depth, ← hsame.length_eq, List.drop_left]

/-- Paths the parser has alike get one verdict when their names have the same letters. -/
theorem Alike.sameVerdict {value value' : Text} (h : Alike casing.toCasing path path')
    (hletters : path.components.map (List.map casing.simple) =
      path'.components.map (List.map casing.simple))
    (hparse : parse casing.toCasing value = some path)
    (hparse' : parse casing.toCasing value' = some path') :
    SameVerdict mappings (remap value mappings) (remap value' mappings) := by
  cases hdeepest : Backup.deepest (Backup.rootsAbove path mappings) with
  | none =>
    have hdeepest' : Backup.deepest (Backup.rootsAbove path' mappings) = none := by
      rw [h.deepest, hdeepest, Option.map_none]
    rw [remap_of_none hdeepest hparse, remap_of_none hdeepest' hparse']
    exact .unmapped
  | some root =>
    obtain ⟨mapping, names⟩ := root
    obtain ⟨hmem, -, hnames⟩ := names_of_deepest hdeepest
    have hdeepest' : Backup.deepest (Backup.rootsAbove path' mappings) =
        some (mapping, path'.components.drop mapping.source.depth) := by
      rw [h.deepest, hdeepest, Option.map_some]
    have hsame : names.map (List.map casing.simple) =
        (path'.components.drop mapping.source.depth).map (List.map casing.simple) := by
      rw [hnames, List.map_drop, hletters, List.map_drop]
    have hplain : (∀ name ∈ names, Path.IsPlain name) ↔
        ∀ name ∈ path'.components.drop mapping.source.depth, Path.IsPlain name :=
      ⟨forall_isPlain_of_letters hsame, forall_isPlain_of_letters hsame.symm⟩
    by_cases hnamesPlain : ∀ name ∈ names, Path.IsPlain name
    · obtain ⟨moved, hmoved, hcomponents⟩ := remap_of_plain hparse hdeepest hnamesPlain
      obtain ⟨moved', hmoved', hcomponents'⟩ :=
        remap_of_plain hparse' hdeepest' (hplain.mp hnamesPlain)
      rw [hmoved, hmoved']
      exact .moved hmem hcomponents hcomponents' hsame
    · rw [remap_of_not_plain hparse hdeepest hnamesPlain,
        remap_of_not_plain hparse' hdeepest' fun hall => hnamesPlain (hplain.mpr hall)]
      exact .escapes

end

/-! ## One verdict for all spellings -/

theorem length_lowercaseAfter (casing : Casing) (before text : Text) :
    text.length ≤ (casing.lowercaseAfter before text).length ∧
      (casing.lowercaseAfter before text).length ≤ 2 * text.length := by
  induction text generalizing before with
  | nil => exact ⟨Nat.le_refl _, Nat.zero_le _⟩
  | cons c text ih =>
    obtain ⟨hlow, hhigh⟩ := ih (c :: before)
    rw [Casing.lowercaseAfter, List.length_append, List.length_cons]
    split
    next =>
      rw [List.length_singleton]
      omega
    next =>
      rw [Casing.lower]
      split
      next =>
        rw [List.length_cons, List.length_singleton]
        omega
      next =>
        rw [List.length_singleton]
        omega

theorem length_toLowercase (casing : Casing) (text : Text) :
    text.length ≤ (casing.toLowercase text).length ∧
      (casing.toLowercase text).length ≤ 2 * text.length :=
  length_lowercaseAfter casing [] text

variable {casing : NameCasing} {place place' : Place} {value value' : Text} {path : ForeignPath}

/-- A spelling the parser misreads is not below the root at the place it names. -/
theorem not_below_of_misread (h : Misread casing.toCasing place path)
    (hsame : place.letters casing.toCasing = place'.letters casing.toCasing) :
    ¬Below casing.toCasing path (place'.foreign casing.toCasing) [] := by
  rintro ⟨hstyle, hvolume, front, hfront, hpairs⟩
  have hlength : path.components.length = place'.names.length := by
    rw [hfront, List.append_nil]
    exact hpairs.length_eq
  have hnames : place.names.length = place'.names.length := by
    have hletters := congrArg (List.length ∘ Place.names) hsame
    simpa [Place.letters] using hletters
  cases h with
  | posix hposix => exact absurd (hposix.symm.trans hstyle) (by simp [Place.foreign])
  | server hserver => omega
  | @drive letter hdrive hpath =>
    have hletters := congrArg Place.volume hsame
    rw [Place.letters, Place.letters, hdrive] at hletters
    rw [hpath] at hvolume
    cases hvolume' : place'.volume with
    | share server name =>
      rw [hvolume'] at hletters
      cases hletters
    | drive letter' =>
      rw [Place.foreign, hvolume'] at hvolume
      have hlong := (length_toLowercase casing.toCasing ['\\', '\\', '?', '\\', letter, ':']).1
      have hshort := (length_toLowercase casing.toCasing [letter', ':']).2
      rw [hvolume] at hlong
      exact absurd (Nat.le_trans hlong hshort) (by simp)

/-- The root at a place that a spelling names, moved to a place of its own. -/
def rootAt (casing : NameCasing) (hparse : parse casing.toCasing value' = some path) :
    RootMapping casing.toCasing where
  rootId := []
  source := path
  target := ['/', 't']
  parsed := ⟨value', hparse⟩
  absolute := rfl
  plain := by decide

theorem below_self {casing : Casing} (path : ForeignPath) : Below casing path path [] where
  style := rfl
  volume := rfl
  components := by
    refine ⟨path.components, (List.append_nil _).symm, List.forall₂_same.mpr fun name _ => ?_⟩
    cases path.style <;> exact decide_eq_true rfl

/-- Some mapping's root lies at or above the place the path names. -/
def Mapped (mappings : List (RootMapping casing.toCasing)) (place : Place) : Prop :=
  ∃ mapping ∈ mappings, ∃ names,
    Below casing.toCasing (place.foreign casing.toCasing) mapping.source names

/-- A spelling with the verdict of the root at its place is read as lying there. -/
theorem below_of_sameVerdict (hparse' : parse casing.toCasing value' = some path)
    (h : SameVerdict [rootAt casing hparse'] (remap value [rootAt casing hparse'])
      (remap value' [rootAt casing hparse'])) :
    ∃ path', parse casing.toCasing value = some path' ∧ Below casing.toCasing path' path [] := by
  have hdeepest : deepest (rootsAbove path [rootAt casing hparse']) =
      some (rootAt casing hparse', []) := by
    have hroot : path.below casing.toCasing (rootAt casing hparse').source = some [] :=
      below_iff.mpr (below_self path)
    rw [rootsAbove, List.filterMap_cons, hroot]
    rfl
  obtain ⟨moved', hmoved', hcomponents'⟩ := remap_of_plain hparse' hdeepest (by simp)
  rw [hmoved'] at h
  generalize hverdict : remap value [rootAt casing hparse'] = verdict at h
  cases h with
  | @moved mapping moved _ names names' hmem hcomponents hsame hletters =>
    obtain ⟨path', other, below, hparse, hbelow⟩ := movedBelow_of_remap hverdict
    cases List.mem_singleton.mp hmem
    cases List.mem_singleton.mp hbelow.mem
    have hnone' : names'.map Component.normal = [] := by
      rw [hcomponents', List.map_nil, List.append_nil] at hsame
      exact List.append_right_eq_self.mp hsame.symm
    have hnone : names = [] := by
      rw [List.map_eq_nil_iff.mp hnone', List.map_nil, List.map_eq_nil_iff] at hletters
      exact hletters
    have hbelowNone : below = [] := by
      have heq := hbelow.components.symm.trans hcomponents
      rw [hnone, List.map_nil, List.append_nil, List.append_right_eq_self] at heq
      exact List.map_eq_nil_iff.mp heq
    rw [hbelowNone] at hbelow
    exact ⟨path', hparse, hbelow.below⟩

theorem lowerAgree_of_below (h : Below casing.toCasing (place.foreign casing.toCasing)
      (place'.foreign casing.toCasing) []) :
    LowerAgree casing.toCasing place place' := by
  obtain ⟨-, hvolume, front, hfront, hpairs⟩ := h
  rw [List.append_nil] at hfront
  refine ⟨hvolume, ?_⟩
  have hnames : place.names = front := hfront
  rw [hnames, ← List.forall₂_eq_eq_eq, List.forall₂_map_left_iff, List.forall₂_map_right_iff]
  exact hpairs.imp fun _ _ hsame => of_decide_eq_true hsame

/-- A remap answers with a place below the new place of the deepest root, under the names stored
below it; and a spelling of a Windows place has the verdict of a spelling the parser finds exactly
when the parser finds its lead-in too and the two have the same lower case. -/
theorem remap_right_iff (casing : NameCasing) :
    (∀ (value : Text) (mappings : List (RootMapping casing.toCasing)) (moved : Text),
      remap value mappings = .moved moved → ∃ path mapping names,
        parse casing.toCasing value = some path ∧
          MovedBelow path mappings moved mapping names) ∧
    ∀ (value value' : Text) (place place' : Place), windowsPlace value = some place →
      windowsPlace value' = some place' →
      place.letters casing.toCasing = place'.letters casing.toCasing → LeadInWritten value' →
      ((∀ mappings : List (RootMapping casing.toCasing), Mapped mappings place' →
          SameVerdict mappings (remap value mappings) (remap value' mappings)) ↔
        LeadInWritten value ∧ LowerAgree casing.toCasing place place') := by
  refine ⟨fun value mappings moved h => movedBelow_of_remap h, ?_⟩
  intro value value' place place' hplace hplace' hsame hwritten'
  have hparse' := parse_of_written casing.toCasing hwritten' hplace'
  constructor
  · intro hall
    obtain ⟨path, hparse, hbelow⟩ := below_of_sameVerdict hparse'
      (hall [rootAt casing hparse'] ⟨_, List.mem_singleton_self _, [], below_self _⟩)
    have hwritten : LeadInWritten value := by
      by_contra hno
      exact not_below_of_misread (misread_of_not_written hno hplace hparse) hsame hbelow
    rw [parse_of_written casing.toCasing hwritten hplace] at hparse
    cases hparse
    exact ⟨hwritten, lowerAgree_of_below hbelow⟩
  · rintro ⟨hwritten, hvolume, hnames⟩ mappings -
    have hparse := parse_of_written casing.toCasing hwritten hplace
    have halike : Alike casing.toCasing (place.foreign casing.toCasing)
        (place'.foreign casing.toCasing) := ⟨rfl, rfl, hvolume.symm, hnames.symm⟩
    exact halike.sameVerdict (congrArg Place.names hsame) hparse hparse'

theorem someSimple_dot (c : Char) : Glob.someSimple c = '.' ↔ c = '.' := by
  by_cases hsigma : c = 'Σ'
  · rw [hsigma]
    decide
  · by_cases hdotted : c = 'İ'
    · rw [hdotted]
      decide
    · rw [Glob.someSimple_of_ne hsigma hdotted, Text.asciiLowercase_eq_iff (by decide)]

/-- The tables of a few letters. -/
def someNames : NameCasing := { Glob.someCasing with simple_dot := someSimple_dot }

/-- A share that lies at `/t` here. -/
def someShare : RootMapping someNames.toCasing where
  rootId := []
  source := Place.foreign someNames.toCasing ⟨.share ['n'] ['m'], []⟩
  target := ['/', 't']
  parsed := ⟨['\\', '\\', 'n', '\\', 'm'], by decide⟩
  absolute := rfl
  plain := by decide

/-- A folder of the share in two spellings, verbatim and with other letters in capitals. -/
theorem remap_right_share :
    SameVerdict [someShare]
      (remap ['\\', '\\', '?', '\\', 'U', 'N', 'C', '\\', 'n', '\\', 'm', '\\', 'x'] [someShare])
      (remap ['\\', '\\', 'N', '/', '.', '/', 'M', '\\', 'x'] [someShare]) :=
  ((remap_right_iff someNames).2 _ _ ⟨.share ['n'] ['m'], [['x']]⟩ ⟨.share ['N'] ['M'], [['x']]⟩
    (by decide) (by decide) (by decide) (by decide)).mpr ⟨by decide, by decide⟩ [someShare]
    ⟨someShare, List.mem_singleton_self _, [['x']], below_iff.mp (by decide)⟩

/-- With `unc` in small letters the share is not found below its own root. -/
theorem small_unc_unmapped : ¬ ∀ (value value' : Text) (place place' : Place)
    (mappings : List (RootMapping someNames.toCasing)), windowsPlace value = some place →
      windowsPlace value' = some place' →
      place.letters someNames.toCasing = place'.letters someNames.toCasing →
      Mapped mappings place → Mapped mappings place' →
      SameVerdict mappings (remap value mappings) (remap value' mappings) := by
  intro h
  have hmapped : Mapped [someShare] ⟨.share ['n'] ['m'], []⟩ :=
    ⟨someShare, List.mem_singleton_self _, [], below_self _⟩
  have hverdict := h ['\\', '\\', '?', '\\', 'u', 'n', 'c', '\\', 'n', '\\', 'm']
    ['\\', '\\', '?', '\\', 'U', 'N', 'C', '\\', 'n', '\\', 'm'] ⟨.share ['n'] ['m'], []⟩
    ⟨.share ['n'] ['m'], []⟩ [someShare] rfl rfl rfl hmapped hmapped
  cases hverdict

end RDownloader.Backup
