import RDownloader.SiteRules.Rule

/-!
# Expanding a template (`rd-siterules/src/exec/value.rs`)

A template is filled in one name after another, each by a replacement in the text so far. That is
the template with all its placeholders filled at once as long as no replacement finds a placeholder
that the template did not have.
-/

namespace RDownloader

namespace SiteRules

/-- What a template is made of. -/
inductive Part
  | text (c : Char)
  | hole (name : String)
  deriving DecidableEq, Repr

def placeholder (name : String) : Text := ("$\x7b" ++ name ++ "\x7d").toList

/-- The parts of a template, read as `placeholders` reads its names. -/
def parts : Nat → Text → Option (List Part)
  | 0, _ => some []
  | _ + 1, [] => some []
  | fuel + 1, '$' :: '\x7b' :: rest =>
    match Text.splitOnce '\x7d' rest with
    | none => none
    | some (name, after) =>
      if isVariable name then (parts fuel after).map (.hole (String.ofList name) :: ·) else none
  | fuel + 1, c :: rest => (parts fuel rest).map (.text c :: ·)

def templateParts (template : String) : Option (List Part) :=
  parts (template.length + 1) template.toList

/-- The name a part asks for. -/
def Part.name? : Part → Option String
  | text _ => none
  | hole name => some name

/-- A part, with the holes of the names in `filled` filled in. -/
def Part.render (values : String → String) (filled : List String) : Part → Text
  | text c => [c]
  | hole name => if name ∈ filled then (values name).toList else placeholder name

/-- A template with the holes of some names filled in, all at once. -/
def render (values : String → String) (filled : List String) (template : List Part) : Text :=
  template.flatMap (Part.render values filled)

/-- The names of a template, in order. -/
def names (template : List Part) : List String := template.filterMap Part.name?

/-- A template with every hole filled in. -/
def rendered (values : String → String) (template : List Part) : String :=
  String.ofList (render values (names template) template)

/-- No placeholder of a name begins in a text. -/
def NoneBegins (name : String) (text behind : Text) : Prop :=
  ∀ front back, text = front ++ back → back ≠ [] → ¬ placeholder name <+: back ++ behind

/-- With some names filled in, a template has no placeholder of a name but its own. -/
def OnlyOwn (values : String → String) (filled : List String) (name : String)
    (template : List Part) : Prop :=
  ∀ front part back, template = front ++ part :: back → part ≠ .hole name ∨ name ∈ filled →
    NoneBegins name (part.render values filled) (render values filled back)

/-- At the turn of each name, the names before it filled in, the text has no placeholder of it but
the template's own; or its value is the placeholder itself. -/
def OwnPlaceholdersOnly (values : String → String) (template : List Part) : Prop :=
  ∀ before name after, names template = before ++ name :: after →
    OnlyOwn values before name template ∨ (values name).toList = placeholder name

/-! ## Replacing -/

variable {values : String → String} {filled : List String} {name : String} {template : List Part}
  {pattern value text behind result : Text}

theorem placeholder_ne_nil (name : String) : placeholder name ≠ [] := by
  rw [placeholder, String.toList_append, String.toList_append]
  exact List.append_ne_nil_of_right_ne_nil _ (by decide)

/-- What a replacement gives, whatever the number of rounds is. -/
def Replaces (pattern value text result : Text) : Prop :=
  ∀ fuel, text.length < fuel → replaceIn pattern value fuel text = result

theorem replaces_nil (pattern value : Text) : Replaces pattern value [] [] := by
  intro fuel hfuel
  cases fuel with
  | zero => cases hfuel
  | succ fuel => rfl

/-- What no occurrence begins in is kept. -/
theorem Replaces.kept (h : Replaces pattern value behind result)
    (hnone : ∀ front back, text = front ++ back → back ≠ [] → ¬ pattern <+: back ++ behind) :
    Replaces pattern value (text ++ behind) (text ++ result) := by
  induction text with
  | nil => exact h
  | cons c text ih =>
    intro fuel hfuel
    cases fuel with
    | zero => cases hfuel
    | succ fuel =>
      have hhere : ¬ pattern <+: c :: (text ++ behind) :=
        hnone [] (c :: text) rfl (List.cons_ne_nil _ _)
      have hrest := ih fun front back htext hback =>
        hnone (c :: front) back (by rw [htext, List.cons_append]) hback
      rw [List.cons_append, replaceIn,
        if_neg fun hprefix => hhere (List.isPrefixOf_iff_prefix.mp hprefix),
        hrest fuel (Nat.lt_of_succ_lt_succ hfuel), List.cons_append]

/-- An occurrence is replaced. -/
theorem Replaces.replaced (h : Replaces pattern value behind result) (hpattern : pattern ≠ []) :
    Replaces pattern value (pattern ++ behind) (value ++ result) := by
  intro fuel hfuel
  cases fuel with
  | zero => cases hfuel
  | succ fuel =>
    obtain ⟨c, rest, rfl⟩ := List.exists_cons_of_ne_nil hpattern
    have hprefix : (c :: rest).isPrefixOf (c :: (rest ++ behind)) :=
      List.isPrefixOf_iff_prefix.mpr (List.prefix_append (c :: rest) behind)
    have hlength : behind.length < fuel := by
      rw [List.length_append, List.length_cons] at hfuel
      omega
    rw [List.cons_append, replaceIn, if_pos hprefix, ← List.cons_append, List.drop_left,
      h fuel hlength]

/-- Replacing something by itself changes nothing. -/
theorem replaces_self (hpattern : pattern ≠ []) (n : Nat) (h : text.length ≤ n) :
    Replaces pattern pattern text text := by
  induction n generalizing text with
  | zero =>
    rw [List.eq_nil_of_length_eq_zero (Nat.le_zero.mp h)]
    exact replaces_nil _ _
  | succ n ih =>
    by_cases hprefix : pattern <+: text
    · obtain ⟨behind, rfl⟩ := hprefix
      have hpositive := List.length_pos_iff.mpr hpattern
      rw [List.length_append] at h
      exact (ih (by omega)).replaced hpattern
    · cases text with
      | nil => exact replaces_nil _ _
      | cons c text =>
        have hkept := ih (Nat.le_of_succ_le_succ h)
        refine hkept.kept (fun front back hc hback => ?_ : ∀ front back, [c] = front ++ back → _)
        rcases List.append_eq_cons_iff.mp hc.symm with ⟨rfl, rfl⟩ | ⟨rest, -, hnil⟩
        · exact hprefix
        · exact absurd (List.append_eq_nil_iff.mp hnil.symm).2 hback

/-- With only its own placeholders there, a replacement fills in one more name. -/
theorem replaces_render (h : OnlyOwn values filled name template) :
    Replaces (placeholder name) (values name).toList (render values filled template)
      (render values (name :: filled) template) := by
  induction template with
  | nil => exact replaces_nil _ _
  | cons part template ih =>
    have hrest := ih fun front other back htemplate =>
      h (part :: front) other back (by rw [htemplate, List.cons_append])
    rw [render, List.flatMap_cons, render, List.flatMap_cons]
    by_cases hown : part = .hole name ∧ name ∉ filled
    · obtain ⟨rfl, hopen⟩ := hown
      rw [Part.render, if_neg hopen, Part.render, if_pos (List.mem_cons_self ..)]
      exact hrest.replaced (placeholder_ne_nil name)
    · have hsame : part.render values (name :: filled) = part.render values filled := by
        cases part with
        | text c => rfl
        | hole other =>
          rw [Part.render, Part.render]
          by_cases hother : other = name
          · subst hother
            have hfilled : other ∈ filled := Decidable.of_not_not fun hopen => hown ⟨rfl, hopen⟩
            rw [if_pos (List.mem_cons_self ..), if_pos hfilled]
          · by_cases hfilled : other ∈ filled
            · rw [if_pos (List.mem_cons_of_mem _ hfilled), if_pos hfilled]
            · rw [if_neg (List.not_mem_cons_of_ne_of_not_mem hother hfilled), if_neg hfilled]
      rw [hsame]
      refine hrest.kept (h [] part template rfl ?_)
      by_cases hpart : part = .hole name
      · exact .inr (Decidable.of_not_not fun hopen => hown ⟨hpart, hopen⟩)
      · exact .inl hpart

theorem render_congr (more : List String)
    (h : ∀ other ∈ names template, (other ∈ filled ↔ other ∈ more) ∨
      (values other).toList = placeholder other) :
    render values filled template = render values more template := by
  induction template with
  | nil => rfl
  | cons part template ih =>
    rw [render, List.flatMap_cons, render, List.flatMap_cons]
    cases part with
    | text c =>
      rw [show names (.text c :: template) = names template from rfl] at h
      exact congrArg _ (ih h)
    | hole other =>
      rw [show names (.hole other :: template) = other :: names template from rfl] at h
      obtain ⟨hother, hrest⟩ := List.forall_mem_cons.mp h
      have hsame : Part.render values filled (.hole other) =
          Part.render values more (.hole other) := by
        rw [Part.render, Part.render]
        rcases hother with hiff | hself
        · by_cases hfilled : other ∈ filled
          · rw [if_pos hfilled, if_pos (hiff.mp hfilled)]
          · rw [if_neg hfilled, if_neg fun hmore => hfilled (hiff.mpr hmore)]
        · rw [hself, ite_self, ite_self]
      rw [hsame]
      exact congrArg _ (ih hrest)

theorem toList_replacePlaceholder (text name value : String)
    (h : Replaces (placeholder name) value.toList text.toList result) :
    (replacePlaceholder text name value).toList = result := by
  rw [replacePlaceholder, String.toList_ofList]
  exact h (text.length + 1) (by rw [String.length_toList]; exact Nat.lt_succ_self _)

/-- One replacement fills in one more name. -/
theorem toList_replaced {expanded : String}
    (hexpanded : expanded.toList = render values filled template)
    (h : OnlyOwn values filled name template ∨ (values name).toList = placeholder name) :
    (replacePlaceholder expanded name (values name)).toList =
      render values (name :: filled) template := by
  apply toList_replacePlaceholder
  rw [hexpanded]
  rcases h with hown | hself
  · exact replaces_render hown
  · rw [hself, render_congr (name :: filled)]
    · exact replaces_self (placeholder_ne_nil name) _ (Nat.le_refl _)
    · intro other _
      by_cases hother : other = name
      · exact .inr (hother ▸ hself)
      · exact .inl ⟨List.mem_cons_of_mem _, fun h => (List.mem_cons.mp h).resolve_left hother⟩

/-! ## Templates -/

theorem parts_spec (values : String → String) {fuel : Nat} (hfuel : text.length < fuel)
    (h : parts fuel text = some template) :
    placeholders fuel text = some (names template) ∧ render values [] template = text := by
  fun_induction parts fuel text generalizing template with
  | case1 => cases hfuel
  | case2 =>
    cases h
    exact ⟨rfl, rfl⟩
  | case3 => cases h
  | case4 fuel rest name after hsplit hname ih =>
    obtain ⟨more, hmore, rfl⟩ := Option.map_eq_some_iff.mp h
    obtain ⟨hrest, hvariable⟩ := Text.splitOnce_eq hsplit
    have hlength : after.length < fuel := by
      have hlong := congrArg List.length hrest
      simp only [List.length_append, List.length_cons] at hlong hfuel
      omega
    obtain ⟨hnames, hrender⟩ := ih hlength hmore
    constructor
    · rw [placeholders, hsplit]
      dsimp only
      rw [if_pos hname, hnames]
      rfl
    · rw [render, List.flatMap_cons, Part.render, if_neg (List.not_mem_nil), placeholder,
        String.toList_append, String.toList_append, String.toList_ofList]
      refine (congrArg _ hrender).trans ?_
      rw [hrest]
      simp
  | case5 => cases h
  | case6 fuel c rest hother ih =>
    obtain ⟨more, hmore, rfl⟩ := Option.map_eq_some_iff.mp h
    obtain ⟨hnames, hrender⟩ := ih (Nat.lt_of_succ_lt_succ hfuel) hmore
    constructor
    · rw [placeholders, hnames]
      · rfl
      · exact hother
    · exact congrArg (c :: ·) hrender

/-- Every well-formed template has parts. -/
theorem exists_parts {fuel : Nat} {found : List String} (h : placeholders fuel text = some found) :
    ∃ template, parts fuel text = some template := by
  fun_induction parts fuel text generalizing found with
  | case1 => exact ⟨[], rfl⟩
  | case2 => exact ⟨[], rfl⟩
  | case3 fuel rest hsplit =>
    rw [placeholders, hsplit] at h
    cases h
  | case4 fuel rest name after hsplit hname ih =>
    rw [placeholders, hsplit] at h
    dsimp only at h
    rw [if_pos hname] at h
    obtain ⟨more, hmore, -⟩ := Option.map_eq_some_iff.mp h
    obtain ⟨template, htemplate⟩ := ih hmore
    exact ⟨_, by rw [htemplate]; rfl⟩
  | case5 fuel rest name after hsplit hname =>
    rw [placeholders, hsplit] at h
    dsimp only at h
    rw [if_neg hname] at h
    cases h
  | case6 fuel c rest hother ih =>
    rw [placeholders] at h
    · obtain ⟨template, htemplate⟩ := ih h
      exact ⟨_, by rw [htemplate]; rfl⟩
    · exact hother

variable {source : String}

theorem templateParts_isSome :
    (templateParts source).isSome ↔ (templateVariables source).isSome := by
  have hlength : source.toList.length < source.length + 1 := by
    rw [String.length_toList]
    exact Nat.lt_succ_self _
  constructor
  · intro h
    obtain ⟨template, htemplate⟩ := Option.isSome_iff_exists.mp h
    rw [templateVariables, (parts_spec id hlength htemplate).1]
    rfl
  · intro h
    obtain ⟨found, hfound⟩ := Option.isSome_iff_exists.mp h
    obtain ⟨template, htemplate⟩ := exists_parts hfound
    rw [templateParts, htemplate]
    rfl

theorem templateParts_spec (values : String → String) (h : templateParts source = some template) :
    templateVariables source = some (names template) ∧ render values [] template = source.toList :=
  parts_spec values (by rw [String.length_toList]; exact Nat.lt_succ_self _) h

/-! ## Filling in -/

/-- The value a name has for a template: the entry's text for the one list, and else the first
string. -/
def valueOf (vars : Variables) (entry : Option (String × String)) (name : String) : Option String :=
  match entry with
  | some (list, text) => if list = name then some text else (vars name).bind Value.first?
  | none => (vars name).bind Value.first?

variable {vars : Variables} {entry : Option (String × String)}

/-- One name of a template, in the text so far. -/
def fill (vars : Variables) (entry : Option (String × String)) (expanded name : String) :
    Except String String :=
  match valueOf vars entry name with
  | none => .error name
  | some value => .ok (replacePlaceholder expanded name value)

theorem substitute_eq {found : List String} (h : templateVariables source = some found) :
    vars.substitute source entry = found.foldlM (fill vars entry) source := by
  rw [Variables.substitute, h]
  rfl

/-- The names behind those that are filled in. -/
theorem fill_rest (hvalues : ∀ name ∈ names template, valueOf vars entry name = some (values name))
    (hown : OwnPlaceholdersOnly values template) {rest : List String} :
    ∀ {before : List String} {expanded : String}, names template = before ++ rest →
      expanded.toList = render values before template →
      ∃ last, rest.foldlM (fill vars entry) expanded = .ok last ∧
        last.toList = render values (names template) template := by
  induction rest with
  | nil =>
    intro before expanded hnames hexpanded
    rw [List.append_nil] at hnames
    exact ⟨expanded, rfl, hnames ▸ hexpanded⟩
  | cons name rest ih =>
    intro before expanded hnames hexpanded
    have hvalue := hvalues name (by rw [hnames]; simp)
    have hturn := toList_replaced hexpanded (hown before name rest hnames)
    rw [render_congr (before ++ [name])] at hturn
    · obtain ⟨last, hlast, htext⟩ := ih (hnames.trans (List.append_cons ..)) hturn
      refine ⟨last, ?_, htext⟩
      rw [List.foldlM_cons, fill, hvalue]
      exact hlast
    · intro other _
      left
      rw [List.mem_cons, List.mem_append, List.mem_singleton, or_comm]

theorem substitute_rendered (hparts : templateParts source = some template)
    (hvalues : ∀ name ∈ names template, valueOf vars entry name = some (values name))
    (hown : OwnPlaceholdersOnly values template) :
    vars.substitute source entry = .ok (rendered values template) := by
  obtain ⟨hnames, hrender⟩ := templateParts_spec values hparts
  obtain ⟨last, hlast, htext⟩ := fill_rest hvalues hown (List.nil_append _).symm hrender.symm
  rw [substitute_eq hnames, hlast, rendered, ← htext, String.ofList_toList]

/-! ## Values without a dollar sign -/

theorem placeholder_eq (name : String) :
    placeholder name = '$' :: '\x7b' :: (name.toList ++ ['\x7d']) := by
  rw [placeholder, String.toList_append, String.toList_append]
  rfl

theorem mem_names {name : String} : name ∈ names template ↔ .hole name ∈ template := by
  rw [names, List.mem_filterMap]
  constructor
  · rintro ⟨part, hmem, hname⟩
    cases part with
    | text c => cases hname
    | hole other =>
      obtain rfl := Option.some.inj hname
      exact hmem
  · exact fun h => ⟨.hole name, h, rfl⟩

/-- Placeholders of two names do not begin at one place. -/
theorem eq_of_placeholder_prefix {other : String} (hname : '\x7d' ∉ name.toList)
    (hother : '\x7d' ∉ other.toList) (h : placeholder name <+: placeholder other ++ behind) :
    name = other := by
  obtain ⟨rest, hrest⟩ := h
  rw [placeholder_eq, placeholder_eq] at hrest
  simp only [List.cons_append, List.append_assoc, List.nil_append, List.cons.injEq, true_and]
    at hrest
  have hsplit := congrArg (Text.splitOnce '\x7d') hrest
  rw [Text.splitOnce_append hname, Text.splitOnce_append hother] at hsplit
  exact String.toList_inj.mp (congrArg Prod.fst (Option.some.inj hsplit))

end SiteRules

end RDownloader
