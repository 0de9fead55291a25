import Mathlib.Data.List.Forall2
import RDownloader.Files.PortableNames
import RDownloader.Files.SortTemplate

/-!
# Where templates lead

Both expanders sanitise one text for each segment that is not blank, and push the names it becomes.
-/

namespace RDownloader

namespace Template

open Names

variable {nfc : Text → Text} {blank : Text → Bool} {reserve limit : Nat} {path : Text}
  {texts : List Text} {cut : Text × Nat}

/-- What is sanitised below a path, each text with the units that its name may take. -/
def cuts (nfc : Text → Text) (blank : Text → Bool) (reserve : Nat) :
    Text → List Text → List (Text × Nat)
  | _, [] => []
  | path, text :: rest =>
    if blank text then cuts nfc blank reserve path rest
    else
      let limit := if rest = [] then unitsWithin path reserve else maxUtf16Units
      (text, limit) :: cuts nfc blank reserve (Path.push path (sanitizeToLimit nfc text limit)) rest

def cutName (nfc : Text → Text) (cut : Text × Nat) : Text := sanitizeToLimit nfc cut.1 cut.2

theorem unitsWithin_bounds (directory : Text) (reserve : Nat) :
    24 ≤ unitsWithin directory reserve ∧ unitsWithin directory reserve ≤ maxUtf16Units := by
  unfold unitsWithin minNameUtf16Units maxUtf16Units
  omega

theorem bounds_of_mem_cuts (h : cut ∈ cuts nfc blank reserve path texts) :
    24 ≤ cut.2 ∧ cut.2 ≤ maxUtf16Units := by
  induction texts generalizing path with
  | nil => cases h
  | cons text rest ih =>
    rw [cuts] at h
    split at h
    · exact ih h
    · rcases List.mem_cons.mp h with rfl | h
      · dsimp only
        split
        · exact unitsWithin_bounds path reserve
        · decide
      · exact ih h

theorem cuts_sublist (nfc : Text → Text) (blank : Text → Bool) (reserve : Nat) (path : Text)
    (texts : List Text) : ((cuts nfc blank reserve path texts).map Prod.fst).Sublist texts := by
  induction texts generalizing path with
  | nil => exact .slnil
  | cons text rest ih =>
    rw [cuts]
    split
    · exact (ih path).cons text
    · exact (ih _).cons_cons text

/-! ## Names as components -/

theorem isName_of_clean {name : Text} (h : Clean limit name) : Path.IsName name := by
  refine ⟨h.nonempty, fun hslash => ?_, fun hlast => (h.ending '.' hlast).1 rfl⟩
  have hpermitted := h.permitted '/' hslash
  revert hpermitted
  decide

theorem isName_cutName (h : cut ∈ cuts nfc blank reserve path texts) :
    Path.IsName (cutName nfc cut) :=
  isName_of_clean (clean_sanitize nfc cut.1 (bounds_of_mem_cuts h).1)

theorem components_foldl_push {names : List Text} (h : ∀ name ∈ names, Path.IsName name)
    (path : Text) : Path.components (names.foldl Path.push path) =
      Path.components path ++ names.map .normal := by
  induction names generalizing path with
  | nil => rw [List.map_nil, List.append_nil, List.foldl_nil]
  | cons name names ih =>
    rw [List.foldl_cons, ih (fun name hname => h name (List.mem_cons_of_mem _ hname)),
      Path.components_push (h name (List.mem_cons_self ..)), List.append_assoc]
    rfl

/-! ## The two loops -/

variable {values : TemplateValues} {produced : Nat} {template base : Text}

def isBlank (text : Text) : Bool := Text.trimmed text = []

/-- What the segments of a template become, before the sanitiser. -/
def expansions (template : Text) (values : TemplateValues) : List Text :=
  (segments template).map fun segment => substitute segment values

theorem cuts_blank {text : Text} (h : blank text = true) (rest : List Text) :
    cuts nfc blank reserve path (text :: rest) = cuts nfc blank reserve path rest := by
  rw [cuts, if_pos h]

theorem names_cons {text : Text} (h : blank text = false) (rest : List Text) {sanitized : Text}
    (hsanitized : sanitized = sanitizeToLimit nfc text
      (if rest = [] then unitsWithin path reserve else maxUtf16Units)) :
    (cuts nfc blank reserve path (text :: rest)).map (cutName nfc) =
      sanitized ::
        (cuts nfc blank reserve (Path.push path sanitized) rest).map (cutName nfc) := by
  rw [cuts, if_neg (by simp [h]), hsanitized]
  rfl

/-- What the loop of `expand` returns: the path with the names pushed, and how many they are. -/
theorem expandFrom_eq {segments : List Text} {result : Text × Nat}
    (h : expandFrom nfc values reserve path produced segments = .ok result) :
    ∀ names, names = (cuts nfc isBlank reserve path
        (segments.map fun segment => substitute segment values)).map (cutName nfc) →
      result = (names.foldl Path.push path, produced + names.length) := by
  induction segments generalizing path produced with
  | nil =>
    cases h
    rintro _ rfl
    rfl
  | cons segment rest ih =>
    rintro _ rfl
    rw [expandFrom] at h
    dsimp only at h
    have hsanitized : (if rest = [] then
          sanitizeFileNameWithin nfc path (substitute segment values) reserve
        else sanitizeFileName nfc (substitute segment values)) =
        sanitizeToLimit nfc (substitute segment values)
          (if rest.map (fun segment => substitute segment values) = [] then
            unitsWithin path reserve else maxUtf16Units) := by
      simp only [List.map_eq_nil_iff]
      split <;> rfl
    rw [List.map_cons]
    generalize (if rest = [] then _ else _) = sanitized at h hsanitized
    split at h
    next => cases h
    next =>
      split at h
      next hblank =>
        rw [cuts_blank (decide_eq_true hblank)]
        exact ih h _ rfl
      next hblank =>
        split at h
        next => cases h
        next =>
          rw [names_cons (decide_eq_false hblank) _ hsanitized, List.foldl_cons, List.length_cons,
            Nat.add_comm _ 1, ← Nat.add_assoc]
          exact ih h _ rfl

theorem length_segments (h : validate template = .ok ()) :
    (segments template).length ≤ maxTemplateDepth := by
  unfold validate at h
  dsimp only at h
  iterate 3
    split at h
    · cases h
  cases hfields : checkFields none (Text.trimmed template) with
  | error => rw [hfields] at h; cases h
  | ok =>
    rw [hfields] at h
    dsimp only [bind, Except.bind] at h
    split at h
    · cases h
    split at h
    · cases h
    next hdepth =>
      refine le_trans (List.Sublist.length_le ?_) (Nat.not_lt.mp hdepth)
      refine List.monotone_filter_right _ fun segment hne => ?_
      simp only [decide_eq_true_eq, ne_eq] at hne ⊢
      rintro rfl
      exact hne rfl

/-! ## What is reached -/

/-- A result lies below a base, by portable names: each stands for one of the texts that the
segments of the template become, in their order, and there are at most eight. -/
structure StaysBelow (nfc : Text → Text) (base result : Text) (texts names : List Text) :
    Prop where
  below : Path.components result = Path.components base ++ names.map .normal
  strict : names ≠ []
  depth : names.length ≤ maxTemplateDepth
  levels : ∃ kept, kept.Sublist texts ∧
    List.Forall₂ (fun text name => ∃ limit, name = sanitizeToLimit nfc text limit) kept names
  ordinary : ∀ name ∈ names, name ≠ ".".toList ∧ name ≠ "..".toList
  portable : ∀ name ∈ names, Portable maxUtf16Units name

/-- No text is cut where a device name is laid bare. -/
def NoneBared (nfc : Text → Text) (blank : Text → Bool) (reserve : Nat) (base : Text)
    (texts : List Text) : Prop :=
  ∀ cut ∈ cuts nfc blank reserve base texts, NoDeviceBared nfc cut.1 cut.2

theorem portable_cutName_iff (h : cut ∈ cuts nfc blank reserve path texts) :
    Portable maxUtf16Units (cutName nfc cut) ↔ NoDeviceBared nfc cut.1 cut.2 := by
  obtain ⟨hlower, hupper⟩ := bounds_of_mem_cuts h
  have hclean := clean_sanitize nfc cut.1 hlower
  rw [← portable_iff hlower]
  constructor
  · exact fun hportable => ⟨hclean, hportable.device⟩
  · intro hportable
    exact ⟨{ hclean with units := hclean.units.trans hupper }, hportable.device⟩

/-- Whatever is pushed name after name is contained, when no device name is laid bare. -/
theorem contained_iff {names : List Text} {result : Text}
    (hnames : (cuts nfc blank reserve base texts).map (cutName nfc) = names)
    (hresult : result = names.foldl Path.push base) (hstrict : names ≠ [])
    (hdepth : texts.length ≤ maxTemplateDepth) :
    (∃ names, StaysBelow nfc base result texts names) ↔ NoneBared nfc blank reserve base texts := by
  have hisName : ∀ name ∈ names, Path.IsName name := by
    intro name hname
    rw [← hnames] at hname
    obtain ⟨cut, hcut, rfl⟩ := List.mem_map.mp hname
    exact isName_cutName hcut
  have hbelow := components_foldl_push hisName base
  rw [← hresult] at hbelow
  constructor
  · rintro ⟨names', h⟩ cut hcut
    have hsame : names' = names := by
      have hmap := List.append_cancel_left (h.below.symm.trans hbelow)
      refine List.map_injective_iff.mpr (fun a b heq => ?_) hmap
      cases heq
      rfl
    refine (portable_cutName_iff hcut).mp (h.portable _ ?_)
    rw [hsame, ← hnames]
    exact List.mem_map_of_mem hcut
  · intro h
    have hsublist := cuts_sublist nfc blank reserve base texts
    refine ⟨names, hbelow, hstrict, ?_, ⟨_, hsublist, ?_⟩, ?_, ?_⟩
    · rw [← hnames, List.length_map, ← List.length_map (f := Prod.fst)]
      exact hsublist.length_le.trans hdepth
    · rw [← hnames, List.forall₂_map_left_iff, List.forall₂_map_right_iff]
      exact List.forall₂_same.mpr fun cut _ => ⟨cut.2, rfl⟩
    · intro name hname
      have hending := (hisName name hname).ending
      exact ⟨fun heq => hending (by rw [heq]; rfl), fun heq => hending (by rw [heq]; rfl)⟩
    · intro name hname
      rw [← hnames] at hname
      obtain ⟨cut, hcut, rfl⟩ := List.mem_map.mp hname
      exact (portable_cutName_iff hcut).mpr (h cut hcut)

theorem expand_contained_iff (h : expand nfc values reserve base template = .ok path) :
    (∃ names, StaysBelow nfc base path (expansions template values) names) ↔
      NoneBared nfc isBlank reserve base (expansions template values) := by
  unfold expand at h
  cases hvalid : validate template with
  | error => rw [hvalid] at h; cases h
  | ok =>
    rw [hvalid] at h
    dsimp only [bind, Except.bind] at h
    cases hloop : expandFrom nfc values reserve base 0 (segments template) with
    | error => rw [hloop] at h; cases h
    | ok result =>
      rw [hloop] at h
      dsimp only at h
      have heq := expandFrom_eq hloop _ rfl
      split at h
      next => cases h
      next hproduced =>
        split at h
        next => cases h
        next =>
          cases h
          obtain ⟨hpath, hcount⟩ := Prod.mk.inj heq
          refine contained_iff rfl hpath ?_ ?_
          · intro hnone
            refine hproduced (hcount.trans ?_)
            rw [Nat.zero_add, List.length_eq_zero_iff]
            exact hnone
          · rw [expansions, List.length_map]
            exact length_segments hvalid

end Template

namespace SortTemplate

open Names Template

variable {lowercase uppercase nfc : Text → Text} {found : SortMatch} {directory stem : Text}

/-- What the segments of a template become, before the sanitiser. -/
def expansions (lowercase uppercase : Text → Text) (segments : List (List Piece))
    (found : SortMatch) : List Text :=
  segments.map fun pieces => tidy (render lowercase uppercase pieces found)

theorem expansions_cons (pieces : List Piece) (rest : List (List Piece)) :
    expansions lowercase uppercase (pieces :: rest) found =
      tidy (render lowercase uppercase pieces found) ::
        expansions lowercase uppercase rest found := rfl

/-- What the loop of `expand_sort_template` returns: the folders pushed, and the last name. -/
theorem expandFrom_eq {segments : List (List Piece)} {result : Text}
    (h : expandFrom lowercase uppercase nfc found directory segments = .ok (result, some stem)) :
    ∃ folders, (cuts nfc List.isEmpty sortCompanionReserve directory
        (expansions lowercase uppercase segments found)).map (cutName nfc) = folders ++ [stem] ∧
      result = folders.foldl Path.push directory := by
  induction segments generalizing directory with
  | nil => cases h
  | cons pieces rest ih =>
    have hsanitized {text : Text} {last : Bool} (hlast : last = decide (rest = [])) :
        (if last then sanitizeFileNameWithin nfc directory text sortCompanionReserve
          else sanitizeFileName nfc text) =
        sanitizeToLimit nfc text (if expansions lowercase uppercase rest found = [] then
          unitsWithin directory sortCompanionReserve else maxUtf16Units) := by
      simp only [expansions, List.map_eq_nil_iff, hlast, decide_eq_true_eq]
      split <;> rfl
    rw [expandFrom] at h
    dsimp only at h
    rw [expansions_cons]
    generalize tidy (render lowercase uppercase pieces found) = text at h ⊢
    split at h
    next => cases h
    next =>
      split at h
      next => cases h
      next =>
        split at h
        next hempty =>
          rw [cuts_blank (List.isEmpty_iff.mpr hempty)]
          split at h
          next => cases h
          next => exact ih h
        next hne =>
          have hne : text.isEmpty = false := by simpa using hne
          split at h
          next hlast =>
            simp only [Except.ok.injEq, Prod.mk.injEq, Option.some.injEq] at h
            obtain ⟨rfl, hstem⟩ := h
            rw [names_cons hne _ (hsanitized (decide_eq_true hlast).symm), if_pos rfl, hstem, hlast]
            exact ⟨[], rfl, rfl⟩
          next hlast =>
            split at h
            next => cases h
            next =>
              obtain ⟨folders, hfolders, hresult⟩ := ih h
              rw [names_cons hne _ (hsanitized (decide_eq_false hlast).symm),
                if_neg Bool.false_ne_true, hfolders]
              exact ⟨sanitizeFileName nfc text :: folders, rfl, by rw [List.foldl_cons, hresult]⟩

/-! ## Levels -/

theorem length_of_mapM {α : Type} {β : Type} {f : α → Except SortTemplateError β} {xs : List α}
    {ys : List β} (h : xs.mapM f = .ok ys) : ys.length = xs.length := by
  induction xs generalizing ys with
  | nil =>
    cases h
    rfl
  | cons x xs ih =>
    rw [List.mapM_cons] at h
    cases hx : f x with
    | error => rw [hx] at h; cases h
    | ok y =>
      rw [hx] at h
      cases hxs : xs.mapM f with
      | error => rw [hxs] at h; cases h
      | ok ys' =>
        rw [hxs] at h
        cases h
        rw [List.length_cons, List.length_cons, ih hxs]

theorem length_segments {kind : SortKind} {template : Text} {parsed : List (List Piece)}
    (h : segments kind template = .ok parsed) : parsed.length ≤ maxTemplateDepth := by
  unfold segments at h
  dsimp only at h
  iterate 4
    split at h
    · cases h
  split at h
  · cases h
  split at h
  · cases h
  next hdepth =>
    generalize List.filter _ _ = raw at h hdepth
    cases hparsed : raw.mapM (parseSegment kind) with
    | error => rw [hparsed] at h; cases h
    | ok pieces =>
      rw [hparsed] at h
      dsimp only [bind, Except.bind] at h
      split at h
      · cases h
        rw [length_of_mapM hparsed]
        exact Nat.not_lt.mp hdepth
      · cases h

theorem expand_contained_iff {root template : Text} {target : SortTarget}
    (h : expandSortTemplate lowercase uppercase nfc root template found = .ok target) :
    ∃ parsed, segments found.kind template = .ok parsed ∧
      ((∃ names, StaysBelow nfc root (Path.push target.directory target.stem)
          (expansions lowercase uppercase parsed found) names) ↔
        NoneBared nfc List.isEmpty sortCompanionReserve root
          (expansions lowercase uppercase parsed found)) := by
  unfold expandSortTemplate at h
  cases hparsed : segments found.kind template with
  | error => rw [hparsed] at h; cases h
  | ok parsed =>
    rw [hparsed] at h
    dsimp only [bind, Except.bind] at h
    cases hloop : expandFrom lowercase uppercase nfc found root parsed with
    | error => rw [hloop] at h; cases h
    | ok result =>
      obtain ⟨directory, _ | stem⟩ := result
      · rw [hloop] at h
        cases h
      · rw [hloop] at h
        dsimp only at h
        split at h
        next => cases h
        next =>
          cases h
          obtain ⟨folders, hnames, hdirectory⟩ := expandFrom_eq hloop
          refine ⟨parsed, rfl, contained_iff hnames ?_ (by simp) ?_⟩
          · rw [List.foldl_append, ← hdirectory]
            rfl
          · rw [expansions, List.length_map]
            exact length_segments hparsed

end SortTemplate

namespace Template

/-- What an expander returns is contained exactly when no device name is laid bare on the way. -/
theorem templates_contained_iff (nfc : Text → Text) :
    (∀ (base template : Text) (values : TemplateValues) (reserve : Nat) (path : Text),
      expand nfc values reserve base template = .ok path →
        ((∃ names, StaysBelow nfc base path (expansions template values) names) ↔
          NoneBared nfc isBlank reserve base (expansions template values))) ∧
    ∀ (lowercase uppercase : Text → Text) (root template : Text) (found : SortMatch)
      (target : SortTarget),
      SortTemplate.expandSortTemplate lowercase uppercase nfc root template found = .ok target →
        ∃ parsed, SortTemplate.segments found.kind template = .ok parsed ∧
          ((∃ names, StaysBelow nfc root (Path.push target.directory target.stem)
              (SortTemplate.expansions lowercase uppercase parsed found) names) ↔
            NoneBared nfc List.isEmpty SortTemplate.sortCompanionReserve root
              (SortTemplate.expansions lowercase uppercase parsed found)) :=
  ⟨fun _ _ _ _ _ => expand_contained_iff, fun _ _ _ _ _ _ => SortTemplate.expand_contained_iff⟩

def titled (title : Text) : TemplateValues := fun field =>
  if field = "title".toList then some title else none

theorem trailer_contained :
    ∃ names, StaysBelow id "/downloads".toList "/downloads/Idle _ Trailer".toList
      (expansions "{uploader}/{title}".toList (titled "Idle / Trailer".toList)) names := by
  refine ((templates_contained_iff id).1 "/downloads".toList "{uploader}/{title}".toList
    (titled "Idle / Trailer".toList) 0 _ (by decide +kernel)).mpr ?_
  have hcuts : cuts id isBlank 0 "/downloads".toList (expansions "{uploader}/{title}".toList
      (titled "Idle / Trailer".toList)) = [("Idle / Trailer".toList, 239)] := by
    decide +kernel
  intro cut hcut front hfront
  rw [hcuts, List.mem_singleton] at hcut
  subst hcut
  exact absurd hfront.long (by decide +kernel)

theorem title_bares_device :
    let title := "CON".toList ++ List.replicate 240 ' ' ++ "x".toList
    expand id (titled title) 0 "/downloads".toList "{title}".toList =
        .ok "/downloads/CON".toList ∧
      ¬ ∃ names, StaysBelow id "/downloads".toList "/downloads/CON".toList
        (expansions "{title}".toList (titled title)) names := by
  refine ⟨by decide +kernel, ?_⟩
  rintro ⟨names, h⟩
  have hbelow : Path.components "/downloads/CON".toList =
      Path.components "/downloads".toList ++ [.normal "CON".toList] := by
    decide +kernel
  have hnames := List.append_cancel_left (h.below.symm.trans hbelow)
  obtain ⟨name, rfl⟩ : ∃ name, names = [name] := by
    refine List.length_eq_one_iff.mp ?_
    rw [← List.length_map, hnames]
    rfl
  cases hnames
  have hdevice := (h.portable "CON".toList (List.mem_singleton.mpr rfl)).device
  revert hdevice
  decide +kernel

end Template
end RDownloader
