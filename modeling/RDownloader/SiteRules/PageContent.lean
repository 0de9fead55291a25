import RDownloader.SiteRules.Expansion

/-!
# What a page's text can do to a template (`rd-siterules/src/exec/value.rs`)

A value that holds a placeholder of another name, or the beginning of one, is read as template text
when that name's turn comes. The values that never are, in no template, are those no end of which
begins a placeholder.
-/

namespace RDownloader

namespace SiteRules

variable {values : String → String} {filled : List String} {name other : String}
  {template : List Part} {pattern value text behind : Text} {source : String} {vars : Variables}
  {entry : Option (String × String)}

/-! ## Values that join nothing -/

/-- A template as its author can write it: its names are variables, and no dollar sign of its text
stands before a brace of its text. -/
def Formed : List Part → Prop
  | [] => True
  | .text c :: template => (c = '$' → template.head? ≠ some (.text '\x7b')) ∧ Formed template
  | .hole name :: template => isVariable name.toList ∧ Formed template

/-- No end of a value begins a placeholder of a name, and nor does the value behind a dollar
sign. -/
def Apart (name : String) (value : Text) : Prop :=
  ∀ front back, '$' :: value = front ++ back → back ≠ [] →
    ¬ placeholder name <+: back ∧ ¬ back <+: placeholder name

/-- The value of one name makes no placeholder of another; or that one stands for its own
placeholder. -/
def Unjoined (values : String → String) (name other : String) : Prop :=
  Apart other (values name).toList ∨ (values other).toList = placeholder other

theorem mem_of_isVariable {name : Text} (h : isVariable name) {c : Char} (hc : c ∈ name) :
    c.isLower ∨ c.isDigit ∨ c = '_' := by
  simp only [isVariable, decide_eq_true_eq, List.all_eq_true] at h
  exact h.2.2 c hc

theorem dollar_not_mem {name : Text} (h : isVariable name) : '$' ∉ name :=
  fun hc => absurd (mem_of_isVariable h hc) (by decide)

theorem brace_not_mem {name : Text} (h : isVariable name) : '\x7d' ∉ name :=
  fun hc => absurd (mem_of_isVariable h hc) (by decide)

theorem Formed.of_append {front back : List Part} (h : Formed (front ++ back)) : Formed back := by
  induction front with
  | nil => exact h
  | cons part front ih =>
    cases part with
    | text c => exact ih h.2
    | hole name => exact ih h.2

theorem Formed.variable_of_mem (h : Formed template) (hname : name ∈ names template) :
    isVariable name.toList := by
  obtain ⟨front, back, rfl⟩ := List.append_of_mem (mem_names.mp hname)
  exact h.of_append.1

/-- Behind a dollar sign of the text there is no brace, unless a value has put it there. -/
theorem Formed.apart (h : Formed (.text '$' :: template))
    (happart : ∀ other ∈ names template, other ∈ filled → Apart name (values other).toList) :
    ¬ placeholder name <+: '$' :: render values filled template := by
  intro hprefix
  have hbrace : '\x7b' :: (name.toList ++ ['\x7d']) <+: render values filled template := by
    rw [placeholder_eq] at hprefix
    exact (List.cons_prefix_cons.mp hprefix).2
  cases template with
  | nil => exact List.cons_ne_nil _ _ (List.prefix_nil.mp hbrace)
  | cons part template =>
    rw [render, List.flatMap_cons] at hbrace hprefix
    cases part with
    | text d =>
      obtain ⟨rfl, -⟩ := List.cons_prefix_cons.mp hbrace
      exact h.1 rfl rfl
    | hole other =>
      rw [Part.render] at hbrace hprefix
      split at hbrace
      next hfilled =>
        rw [if_pos hfilled, ← List.cons_append] at hprefix
        have hvalue := happart other (mem_names.mpr (List.mem_cons_self ..)) hfilled [] _ rfl
          (List.cons_ne_nil _ _)
        rcases List.prefix_or_prefix_of_prefix hprefix (List.prefix_append _ _) with hin | hout
        · exact hvalue.1 hin
        · exact hvalue.2 hout
      next hopen =>
        rw [placeholder_eq, List.cons_append] at hbrace
        exact absurd (List.cons_prefix_cons.mp hbrace).1 (by decide)

theorem onlyOwn_of_apart (h : Formed template) (hname : isVariable name.toList)
    (happart : ∀ other ∈ names template, other ∈ filled → Apart name (values other).toList) :
    OnlyOwn values filled name template := by
  intro front part back htemplate hother split rest hpart hrest hprefix
  rw [htemplate] at h
  have hformed := h.of_append
  have hback : ∀ other ∈ names back, other ∈ filled → Apart name (values other).toList := by
    intro other hmem
    refine happart other (mem_names.mpr ?_)
    rw [htemplate]
    exact List.mem_append_right _ (List.mem_cons_of_mem _ (mem_names.mp hmem))
  cases part with
  | text c =>
    rcases List.append_eq_cons_iff.mp hpart.symm with ⟨rfl, rfl⟩ | ⟨split, -, hnil⟩
    · rw [placeholder_eq, List.singleton_append] at hprefix
      obtain rfl := (List.cons_prefix_cons.mp hprefix).1
      rw [← placeholder_eq] at hprefix
      exact Formed.apart hformed hback hprefix
    · exact absurd (List.append_eq_nil_iff.mp hnil.symm).2 hrest
  | hole other =>
    have hmem : other ∈ names template := by
      rw [mem_names, htemplate]
      exact List.mem_append_right _ (List.mem_cons_self ..)
    rw [Part.render] at hpart
    split at hpart
    next hfilled =>
      have hvalue := happart other hmem hfilled ('$' :: split) rest (by rw [hpart]; rfl) hrest
      rcases List.prefix_or_prefix_of_prefix hprefix (List.prefix_append _ _) with hin | hout
      · exact hvalue.1 hin
      · exact hvalue.2 hout
    next hopen =>
      rw [placeholder_eq] at hpart
      cases split with
      | nil =>
        rw [List.nil_append] at hpart
        rw [← hpart, ← placeholder_eq] at hprefix
        obtain rfl :=
          eq_of_placeholder_prefix (brace_not_mem hname) (brace_not_mem hformed.1) hprefix
        exact hother.elim (fun hne => hne rfl) hopen
      | cons c split =>
        -- behind its first character a placeholder has no dollar sign
        obtain ⟨d, rest, rfl⟩ := List.exists_cons_of_ne_nil hrest
        rw [placeholder_eq, List.cons_append] at hprefix
        obtain rfl := (List.cons_prefix_cons.mp hprefix).1
        have hlater : '$' ∈ '\x7b' :: (other.toList ++ ['\x7d']) := by
          rw [(List.cons.inj hpart).2]
          exact List.mem_append_right _ (List.mem_cons_self ..)
        simp only [List.mem_cons, List.mem_append, List.not_mem_nil, or_false] at hlater
        rcases hlater with hbrace | hinside | hbrace
        · cases hbrace
        · exact dollar_not_mem hformed.1 hinside
        · cases hbrace

theorem own_of_unjoined (h : Formed template)
    (hvalues : ∀ name ∈ names template, ∀ other ∈ names template, Unjoined values name other) :
    OwnPlaceholdersOnly values template := by
  intro before name after hsplit
  have hname : name ∈ names template := by rw [hsplit]; simp
  by_cases hself : (values name).toList = placeholder name
  · exact .inr hself
  · exact .inl (onlyOwn_of_apart h (h.variable_of_mem hname) fun other hother _ =>
      (hvalues other hother name hname).resolve_right hself)

/-! ## What can be written -/

theorem formed_of_parts {fuel : Nat} (hfuel : text.length < fuel)
    (h : parts fuel text = some template) : Formed template := by
  fun_induction parts fuel text generalizing template with
  | case1 => cases hfuel
  | case2 =>
    cases h
    trivial
  | case3 => cases h
  | case4 fuel rest name after hsplit hname ih =>
    obtain ⟨more, hmore, rfl⟩ := Option.map_eq_some_iff.mp h
    have hlength : after.length < fuel := by
      have hlong := congrArg List.length (Text.splitOnce_eq hsplit).1
      simp only [List.length_append, List.length_cons] at hlong hfuel
      omega
    exact ⟨by rwa [String.toList_ofList], ih hlength hmore⟩
  | case5 => cases h
  | case6 fuel c rest hother ih =>
    obtain ⟨more, hmore, rfl⟩ := Option.map_eq_some_iff.mp h
    have hlength := Nat.lt_of_succ_lt_succ hfuel
    refine ⟨fun hdollar hbrace => ?_, ih hlength hmore⟩
    obtain ⟨tail, rfl⟩ := List.head?_eq_some_iff.mp hbrace
    have hrest := (parts_spec id hlength hmore).2
    exact hother _ hdollar hrest.symm

theorem parts_of_formed (h : Formed template) {fuel : Nat}
    (hfuel : (render values [] template).length < fuel) :
    parts fuel (render values [] template) = some template := by
  induction template generalizing fuel with
  | nil =>
    cases fuel with
    | zero => cases hfuel
    | succ fuel => rfl
  | cons part template ih =>
    cases fuel with
    | zero => cases hfuel
    | succ fuel =>
      cases part with
      | text c =>
        have hrest := ih h.2 (Nat.lt_of_succ_lt_succ hfuel)
        change parts (fuel + 1) (c :: render values [] template) = _
        rw [parts, hrest]
        · rfl
        · intro rest hdollar hbrace
          cases template with
          | nil => cases hbrace
          | cons part template =>
            rw [render, List.flatMap_cons] at hbrace
            cases part with
            | text d =>
              obtain ⟨rfl, -⟩ := List.cons.inj hbrace
              exact h.1 hdollar rfl
            | hole other =>
              rw [Part.render, if_neg List.not_mem_nil, placeholder_eq] at hbrace
              exact absurd (List.cons.inj hbrace).1 (by decide)
      | hole name =>
        have hrender : render values [] (.hole name :: template) =
            '$' :: '\x7b' :: (name.toList ++ '\x7d' :: render values [] template) := by
          rw [render, List.flatMap_cons, Part.render, if_neg List.not_mem_nil, placeholder_eq]
          simp [render]
        have hlength : (render values [] template).length < fuel := by
          rw [hrender] at hfuel
          simp only [List.length_append, List.length_cons] at hfuel
          omega
        rw [hrender, parts, Text.splitOnce_append (brace_not_mem h.1)]
        dsimp only
        rw [if_pos h.1, ih h.2 hlength, String.ofList_toList]
        rfl

theorem templateParts_formed (h : templateParts source = some template) : Formed template :=
  formed_of_parts (by rw [String.length_toList]; exact Nat.lt_succ_self _) h

theorem templateParts_of_formed (values : String → String) (h : Formed template) :
    templateParts (String.ofList (render values [] template)) = some template := by
  rw [templateParts, String.toList_ofList]
  exact parts_of_formed h (by rw [String.length_ofList]; exact Nat.lt_succ_self _)

/-! ## A replacement too many -/

theorem length_replaceIn (value : Text) {fuel : Nat} (hfuel : text.length < fuel)
    (hpattern : pattern ≠ []) :
    ∃ n, (replaceIn pattern value fuel text).length + n * pattern.length =
      text.length + n * value.length ∧ (pattern <:+: text → 0 < n) := by
  induction fuel generalizing text with
  | zero => cases hfuel
  | succ fuel ih =>
    cases text with
    | nil => exact ⟨0, by simp [replaceIn], fun h => absurd (List.infix_nil.mp h) hpattern⟩
    | cons c text =>
      rw [replaceIn]
      split
      next hprefix =>
        obtain ⟨rest, hrest⟩ := List.isPrefixOf_iff_prefix.mp hprefix
        have hlong := congrArg List.length hrest
        rw [List.length_append] at hlong
        have hpositive := List.length_pos_iff.mpr hpattern
        have hlength : rest.length < fuel := by omega
        obtain ⟨n, hn, -⟩ := ih hlength
        refine ⟨n + 1, ?_, fun _ => Nat.succ_pos n⟩
        rw [← hrest, List.drop_left, List.length_append, List.length_append, Nat.succ_mul,
          Nat.succ_mul]
        omega
      next hother =>
        obtain ⟨n, hn, hpositive⟩ := ih (Nat.lt_of_succ_lt_succ hfuel)
        refine ⟨n, by rw [List.length_cons, List.length_cons]; omega, fun hin => hpositive ?_⟩
        exact (List.infix_cons_iff.mp hin).resolve_left fun hprefix =>
          hother (List.isPrefixOf_iff_prefix.mpr hprefix)

/-- The first occurrence goes first. -/
theorem replaceIn_first (value : Text) (hin : pattern <:+: text) (hpattern : pattern ≠ [])
    {tail : Text} {fuel : Nat} (hfuel : (text ++ tail).length < fuel) :
    ∃ front back fuel', text = front ++ (pattern ++ back) ∧ (back ++ tail).length < fuel' ∧
      replaceIn pattern value fuel (text ++ tail) =
        front ++ (value ++ replaceIn pattern value fuel' (back ++ tail)) := by
  induction text generalizing fuel with
  | nil => exact absurd (List.infix_nil.mp hin) hpattern
  | cons c text ih =>
    cases fuel with
    | zero => cases hfuel
    | succ fuel =>
      rw [List.cons_append] at hfuel ⊢
      rw [replaceIn]
      split
      next hprefix =>
        have hlong : pattern.length ≤ (c :: text).length := hin.length_le
        obtain ⟨back, hback⟩ := List.prefix_of_prefix_length_le
          (List.isPrefixOf_iff_prefix.mp hprefix) (List.prefix_append (c :: text) tail) hlong
        refine ⟨[], back, fuel, hback.symm, ?_, ?_⟩
        · have hsame := congrArg List.length hback
          have hpositive := List.length_pos_iff.mpr hpattern
          simp only [List.length_append, List.length_cons] at hsame hfuel ⊢
          omega
        · rw [← List.cons_append, ← hback, List.append_assoc, List.drop_left, List.nil_append]
      next hother =>
        have hlater : pattern <:+: text := (List.infix_cons_iff.mp hin).resolve_left fun hhere =>
          hother (List.isPrefixOf_iff_prefix.mpr (hhere.trans (List.prefix_append (c :: text) tail)))
        obtain ⟨front, back, fuel', htext, hlength, hresult⟩ :=
          ih hlater (Nat.lt_of_succ_lt_succ hfuel)
        exact ⟨c :: front, back, fuel', congrArg (c :: ·) htext, hlength, congrArg (c :: ·) hresult⟩

/-- An occurrence in front of the one that was meant spoils the text: if the two have one length, at
its place, and else by the lengths. -/
theorem replaceIn_ne (hin : pattern <:+: text) (hpattern : pattern ≠ []) (hne : value ≠ pattern)
    {tail : Text} (htail : tail = pattern ∨ tail = value) {fuel : Nat}
    (hfuel : (text ++ tail).length < fuel) :
    replaceIn pattern value fuel (text ++ tail) ≠ text ++ value := by
  intro hsame
  obtain ⟨front, back, fuel', htext, hlength, hresult⟩ :=
    replaceIn_first value hin hpattern hfuel
  obtain ⟨n, hn, hfound⟩ := length_replaceIn value hlength hpattern
  have hrest : value ++ replaceIn pattern value fuel' (back ++ tail) =
      pattern ++ (back ++ value) := by
    rw [hresult, htext, List.append_assoc, List.append_assoc] at hsame
    exact List.append_cancel_left hsame
  have hlong := congrArg List.length hrest
  simp only [List.length_append] at hlong hn
  have hlengths : value.length = pattern.length := by
    rcases htail with rfl | rfl
    · have hpositive : 0 < n := hfound (List.suffix_append back tail).isInfix
      have hproduct : n * tail.length = n * value.length := by omega
      exact (Nat.eq_of_mul_eq_mul_left hpositive hproduct).symm
    · have hproduct : (n + 1) * pattern.length = (n + 1) * tail.length := by
        rw [Nat.succ_mul, Nat.succ_mul]
        omega
      exact (Nat.eq_of_mul_eq_mul_left (Nat.succ_pos n) hproduct).symm
  exact hne (List.append_inj_left hrest hlengths)

/-- A template that goes wrong where a value joins: the joining value, what the placeholder still
lacks, and then the placeholder itself. -/
def spoilt (lead rest : Text) (name other : String) : List Part :=
  lead.map .text ++ .hole name :: (rest.map .text ++ [.hole other])

theorem render_map_text (text : Text) (template : List Part) :
    render values filled (text.map .text ++ template) = text ++ render values filled template := by
  induction text with
  | nil => rfl
  | cons c text ih => exact congrArg (c :: ·) ih

theorem names_map_text (text : Text) (template : List Part) :
    names (text.map .text ++ template) = names template := by
  induction text with
  | nil => rfl
  | cons c text ih => exact ih

theorem formed_map_text {text : Text} (hdollar : '$' ∉ text) (h : Formed template) :
    Formed (text.map .text ++ template) := by
  induction text with
  | nil => exact h
  | cons c text ih =>
    rw [List.mem_cons, not_or] at hdollar
    exact ⟨fun heq => absurd heq.symm hdollar.1, ih hdollar.2⟩

theorem names_spoilt (lead rest : Text) : names (spoilt lead rest name other) = [name, other] := by
  rw [spoilt, names_map_text]
  exact congrArg (name :: ·) (names_map_text rest [.hole other])

theorem formed_spoilt (hname : isVariable name.toList) (hother : isVariable other.toList)
    {lead rest : Text} (hlead : lead = [] ∨ lead = ['$']) (hrest : '$' ∉ rest) :
    Formed (spoilt lead rest name other) := by
  have hbehind : Formed (.hole name :: (rest.map .text ++ [.hole other])) :=
    ⟨hname, formed_map_text hrest ⟨hother, trivial⟩⟩
  rcases hlead with rfl | rfl
  · exact hbehind
  · exact ⟨fun _ h => (nomatch h), hbehind⟩

/-- What a value that is not apart lacks of the placeholder. -/
theorem exists_lacking (hother : isVariable other.toList) (h : ¬ Apart other (values name).toList) :
    ∃ lead rest, (lead = [] ∨ lead = ['$']) ∧ '$' ∉ rest ∧
      placeholder other <:+: lead ++ ((values name).toList ++ rest) := by
  simp only [Apart, Classical.not_forall, Classical.not_and_iff_not_or_not, Classical.not_not] at h
  obtain ⟨front, back, hsplit, hback, hjoin⟩ := h
  have hrest : ∃ rest, '$' ∉ rest ∧ placeholder other <+: back ++ rest := by
    rcases hjoin with hin | ⟨rest, hrest⟩
    · exact ⟨[], List.not_mem_nil, by rwa [List.append_nil]⟩
    · refine ⟨rest, fun hdollar => ?_, hrest ▸ List.prefix_rfl⟩
      obtain ⟨c, back, rfl⟩ := List.exists_cons_of_ne_nil hback
      rw [placeholder_eq, List.cons_append] at hrest
      have hlater : '$' ∈ '\x7b' :: (other.toList ++ ['\x7d']) := by
        rw [← (List.cons.inj hrest).2]
        exact List.mem_append_right _ hdollar
      simp only [List.mem_cons, List.mem_append, List.not_mem_nil, or_false] at hlater
      rcases hlater with hbrace | hinside | hbrace
      · cases hbrace
      · exact dollar_not_mem hother hinside
      · cases hbrace
  obtain ⟨rest, hdollar, hprefix⟩ := hrest
  cases front with
  | nil =>
    refine ⟨['$'], rest, .inr rfl, hdollar, ?_⟩
    rw [← List.append_assoc, List.singleton_append, hsplit]
    exact hprefix.isInfix
  | cons c front =>
    refine ⟨[], rest, .inl rfl, hdollar, ?_⟩
    have hvalue : (values name).toList = front ++ back := (List.cons.inj hsplit).2
    rw [hvalue, List.nil_append, List.append_assoc]
    exact hprefix.isInfix.trans (List.suffix_append front _).isInfix

/-- Values that join spoil a template. -/
theorem exists_spoilt (hname : isVariable name.toList) (hother : isVariable other.toList)
    (h : ¬ Unjoined values name other) :
    ∃ source template, templateParts source = some template ∧ names template = [name, other] ∧
      ∀ vars entry, valueOf vars entry name = some (values name) →
        valueOf vars entry other = some (values other) →
        vars.substitute source entry ≠ .ok (rendered values template) := by
  obtain ⟨hjoin, hvalue⟩ := not_or.mp h
  obtain ⟨lead, rest, hlead, hrest, hin⟩ := exists_lacking hother hjoin
  have hformed := formed_spoilt hname hother hlead hrest
  have hnames : names (spoilt lead rest name other) = [name, other] := names_spoilt lead rest
  have hparts := templateParts_of_formed values hformed
  refine ⟨_, _, hparts, hnames, fun vars entry hfirst hsecond hsame => ?_⟩
  have hturn : (replacePlaceholder (String.ofList (render values [] (spoilt lead rest name other)))
      name (values name)).toList = render values [name] (spoilt lead rest name other) :=
    toList_replaced String.toList_ofList
      (.inl (onlyOwn_of_apart hformed hname fun _ _ hmem => absurd hmem List.not_mem_nil))
  rw [substitute_eq (templateParts_spec values hparts).1, hnames, List.foldlM_cons, fill, hfirst]
    at hsame
  change fill vars entry _ other >>= _ = _ at hsame
  rw [fill, hsecond] at hsame
  have htext := congrArg String.toList (Except.ok.inj hsame)
  rw [replacePlaceholder, String.toList_ofList, rendered, String.toList_ofList, hnames, hturn]
    at htext
  have hbegin : ∀ filled, name ∈ filled → render values filled (spoilt lead rest name other) =
      lead ++ ((values name).toList ++ rest) ++ Part.render values filled (.hole other) := by
    intro filled hfilled
    rw [spoilt, render_map_text, render, List.flatMap_cons, ← render, render_map_text, Part.render,
      if_pos hfilled, render, List.flatMap_cons, List.flatMap_nil, List.append_nil]
    simp only [List.append_assoc]
  have htail : Part.render values [name] (.hole other) = placeholder other ∨
      Part.render values [name] (.hole other) = (values other).toList := by
    rw [Part.render]
    split
    · exact .inr rfl
    · exact .inl rfl
  have hlast : Part.render values [name, other] (.hole other) = (values other).toList :=
    if_pos (List.mem_cons_of_mem _ (List.mem_cons_self ..))
  rw [hbegin [name] (List.mem_cons_self ..), hbegin [name, other] (List.mem_cons_self ..), hlast]
    at htext
  refine replaceIn_ne hin (placeholder_ne_nil other) hvalue htail ?_ htext
  rw [← hbegin [name] (List.mem_cons_self ..), ← hturn, String.length_toList]
  exact Nat.lt_succ_self _

/-! ## Expanding -/

/-- The values with an entry's text for the list it is of. -/
def withEntry (values : String → String) (list entry : String) (name : String) : String :=
  if name = list then entry else values name

theorem lists_of_ones {found : List String} {asked : List String}
    (h : ∀ name ∈ asked, ∃ text, vars name = some (.one text)) :
    vars.lists asked found = .ok found := by
  induction asked with
  | nil => rfl
  | cons name asked ih =>
    obtain ⟨⟨text, htext⟩, hrest⟩ := List.forall_mem_cons.mp h
    rw [Variables.lists, htext]
    exact ih hrest

/-- Once the one list is found, the other names add nothing. -/
theorem lists_found {list : String} {texts asked : List String}
    (hlist : vars list = some (.many texts))
    (h : ∀ name ∈ asked, name ≠ list → ∃ text, vars name = some (.one text)) :
    vars.lists asked [list] = .ok [list] := by
  induction asked with
  | nil => rfl
  | cons name asked ih =>
    obtain ⟨hname, hrest⟩ := List.forall_mem_cons.mp h
    rw [Variables.lists]
    by_cases hsame : name = list
    · rw [hsame, hlist]
      dsimp only
      rw [if_pos (List.mem_singleton_self _)]
      exact ih hrest
    · obtain ⟨text, htext⟩ := hname hsame
      rw [htext]
      exact ih hrest

theorem lists_of_one {list : String} {texts asked : List String}
    (hlist : vars list = some (.many texts)) (hmem : list ∈ asked)
    (h : ∀ name ∈ asked, name ≠ list → ∃ text, vars name = some (.one text)) :
    vars.lists asked [] = .ok [list] := by
  induction asked with
  | nil => cases hmem
  | cons name asked ih =>
    obtain ⟨hname, hrest⟩ := List.forall_mem_cons.mp h
    rw [Variables.lists]
    by_cases hsame : name = list
    · rw [hsame, hlist]
      dsimp only
      rw [if_neg List.not_mem_nil]
      exact lists_found hlist hrest
    · obtain ⟨text, htext⟩ := hname hsame
      rw [htext]
      exact ih ((List.mem_cons.mp hmem).resolve_left (Ne.symm hsame)) hrest

theorem mapM_eq_ok_iff {α β ε : Type} {f : α → Except ε β} {g : α → β} {list : List α} :
    list.mapM f = .ok (list.map g) ↔ ∀ a ∈ list, f a = .ok (g a) := by
  induction list with
  | nil => exact ⟨fun _ a ha => (List.not_mem_nil ha).elim, fun _ => rfl⟩
  | cons a list ih =>
    rw [List.mapM_cons, List.map_cons, List.forall_mem_cons, ← ih]
    cases f a with
    | error error => exact ⟨fun h => (nomatch h), fun h => (nomatch h.1)⟩
    | ok b =>
      cases list.mapM f with
      | error error => exact ⟨fun h => (nomatch h), fun h => (nomatch h.2)⟩
      | ok more =>
        change Except.ok (b :: more) = Except.ok (g a :: list.map g) ↔ _
        rw [Except.ok.injEq, Except.ok.injEq, Except.ok.injEq, List.cons.injEq]

/-- With only its own placeholders at each name's turn, a template is filled in as it stands. -/
theorem expand_rendered (hparts : templateParts source = some template)
    (hvalues : ∀ name ∈ names template, (vars name).bind Value.first? = some (values name))
    (hown : OwnPlaceholdersOnly values template) :
    vars.expand source = .ok (rendered values template) := by
  have hvalueOf : ∀ name ∈ names template, valueOf vars none name = some (values name) := hvalues
  exact substitute_rendered hparts hvalueOf hown

theorem expandEach_one (hparts : templateParts source = some template)
    (hvalues : ∀ name ∈ names template, vars name = some (.one (values name))) :
    vars.expandEach source = .ok (.one (rendered values template)) ↔
      vars.substitute source none = .ok (rendered values template) := by
  have hlists : vars.lists (names template) [] = .ok [] :=
    lists_of_ones fun name hname => ⟨values name, hvalues name hname⟩
  rw [Variables.expandEach, (templateParts_spec values hparts).1]
  dsimp only
  rw [hlists]
  dsimp only
  rw [Variables.expand]
  cases vars.substitute source none with
  | error missing => exact ⟨fun h => (nomatch h), fun h => (nomatch h)⟩
  | ok text =>
    change Except.ok (Expansion.one text) = _ ↔ _
    rw [Except.ok.injEq, Except.ok.injEq, Expansion.one.injEq]

theorem expandEach_each (hparts : templateParts source = some template) {list : String}
    {texts : List String} (hmem : list ∈ names template) (hlist : vars list = some (.many texts))
    (hvalues : ∀ name ∈ names template, name ≠ list → vars name = some (.one (values name))) :
    vars.expandEach source = .ok (.each (texts.eraseDups.map fun entry =>
        rendered (withEntry values list entry) template)) ↔
      ∀ entry ∈ texts, vars.substitute source (some (list, entry)) =
        .ok (rendered (withEntry values list entry) template) := by
  have hlists : vars.lists (names template) [] = .ok [list] :=
    lists_of_one hlist hmem fun name hname hne => ⟨values name, hvalues name hname hne⟩
  rw [Variables.expandEach, (templateParts_spec values hparts).1]
  dsimp only
  rw [hlists]
  dsimp only
  rw [hlist, Option.map_some, Option.getD_some, Value.iter]
  refine Iff.trans ?_ (mapM_eq_ok_iff.trans (forall_congr' fun entry => by rw [List.mem_eraseDups]))
  cases texts.eraseDups.mapM fun entry => vars.substitute source (some (list, entry)) with
  | error missing => exact ⟨fun h => (nomatch h), fun h => (nomatch h)⟩
  | ok found =>
    change Except.ok (Expansion.each found) = _ ↔ _
    rw [Except.ok.injEq, Except.ok.injEq, Expansion.each.injEq]

/-! ## Which values -/

/-- The text of a name that holds no list, or the entry's text for the one list. -/
def textOf (vars : Variables) (entry : Option (String × String)) (name : String) : Option String :=
  match entry, vars name with
  | some (list, text), value =>
    if list = name then some text
    else match value with
      | some (.one text) => some text
      | _ => none
  | none, some (.one text) => some text
  | none, _ => none

/-- No value read makes a placeholder of a name that is read, with a dollar sign before it or
whatever stands behind it; or the name stands for its own placeholder. -/
def JoinsNothing (read : String → Option String) : Prop :=
  ∀ name other value filling, isVariable name.toList → isVariable other.toList →
    read name = some value → read other = some filling →
    Apart other value.toList ∨ filling.toList = placeholder other

/-- `expand` fills in the own placeholders of every template that reads only names with a value. -/
def ExpandsExactly (vars : Variables) : Prop :=
  ∀ source template values, templateParts source = some template →
    (∀ name ∈ names template, (vars name).bind Value.first? = some (values name)) →
    vars.expand source = .ok (rendered values template)

/-- `expand_each` fills in the own placeholders of every template, for every entry of its list. -/
def ExpandsEachExactly (vars : Variables) : Prop :=
  ∀ source template values, templateParts source = some template →
    ((∀ name ∈ names template, vars name = some (.one (values name))) →
      vars.expandEach source = .ok (.one (rendered values template))) ∧
    ∀ list ∈ names template, ∀ texts, vars list = some (.many texts) →
      (∀ name ∈ names template, name ≠ list → vars name = some (.one (values name))) →
      vars.expandEach source =
        .ok (.each (texts.eraseDups.map fun entry =>
          rendered (withEntry values list entry) template))

theorem valueOf_of_textOf {name text : String} (h : textOf vars entry name = some text) :
    valueOf vars entry name = some text := by
  unfold textOf at h
  split at h
  next list found value =>
    rw [valueOf]
    split at h
    next hlist => rw [if_pos hlist, h]
    next hother =>
      rw [if_neg hother]
      split at h
      next hvalue => rw [hvalue]; exact h
      next => cases h
  next found hvalue =>
    rw [valueOf, hvalue]
    exact h
  next => cases h

theorem vars_of_textOf {name text : String} (h : textOf vars none name = some text) :
    vars name = some (.one text) := by
  unfold textOf at h
  split at h
  next hentry => cases hentry
  next hvalue => rw [hvalue, Option.some.inj h]
  next => cases h

theorem vars_of_ne {list found name text : String} (hne : name ≠ list)
    (h : textOf vars (some (list, found)) name = some text) : vars name = some (.one text) := by
  rw [textOf, if_neg (Ne.symm hne)] at h
  split at h
  next hvalue => rw [hvalue, Option.some.inj h]
  next => cases h

theorem textOf_of_vars {name text : String} (h : vars name = some (.one text)) :
    textOf vars none name = some text := by
  unfold textOf
  rw [h]

theorem textOf_withEntry {list found name : String}
    (h : name ≠ list → vars name = some (.one (values name))) :
    textOf vars (some (list, found)) name = some (withEntry values list found name) := by
  rw [textOf, withEntry]
  by_cases hname : name = list
  · rw [if_pos hname.symm, if_pos hname]
  · rw [if_neg (Ne.symm hname), if_neg hname, h hname]

/-- What every name of a template reads joins nothing, so its own placeholders are all there are. -/
theorem JoinsNothing.own {read : String → Option String} (h : JoinsNothing read)
    (hparts : templateParts source = some template)
    (hvalues : ∀ name ∈ names template, read name = some (values name)) :
    OwnPlaceholdersOnly values template := by
  have hformed := templateParts_formed hparts
  refine own_of_unjoined hformed fun name hname other hother => ?_
  exact h name other _ _ (hformed.variable_of_mem hname) (hformed.variable_of_mem hother)
    (hvalues name hname) (hvalues other hother)

/-- If the template that two values would spoil comes out right, they join nothing. -/
theorem unjoined_of_substitute {name : String} (hname : isVariable name.toList)
    (hother : isVariable other.toList) (hvalue : valueOf vars entry name = some (values name))
    (hfilling : valueOf vars entry other = some (values other))
    (h : ∀ source template, templateParts source = some template → names template = [name, other] →
      vars.substitute source entry = .ok (rendered values template)) :
    Unjoined values name other := by
  refine Classical.byContradiction fun hjoined => ?_
  obtain ⟨source, template, hparts, hnames, hspoilt⟩ := exists_spoilt hname hother hjoined
  exact hspoilt vars entry hvalue hfilling (h source template hparts hnames)

theorem forall_mem_pair {P : String → Prop} {asked : List String} {name : String}
    (h : asked = [name, other]) (hname : P name) (hother : P other) : ∀ name ∈ asked, P name := by
  rw [h]
  exact List.forall_mem_cons.mpr ⟨hname, List.forall_mem_singleton.mpr hother⟩

theorem joinsNothing_of_unjoined {read : String → Option String}
    (h : ∀ (values : String → String) name other, isVariable name.toList → isVariable other.toList →
      read name = some (values name) → read other = some (values other) →
      Unjoined values name other) : JoinsNothing read := by
  intro name other value filling hname hother hvalue hfilling
  have hpair := h (fun name => (read name).getD "") name other hname hother
    (by rw [hvalue]; rfl) (by rw [hfilling]; rfl)
  simp only [Unjoined, hvalue, hfilling, Option.getD_some] at hpair
  exact hpair

theorem expandsExactly_iff : ExpandsExactly vars ↔ JoinsNothing (valueOf vars none) := by
  constructor
  · intro h
    refine joinsNothing_of_unjoined fun values name other hname hother hvalue hfilling => ?_
    apply unjoined_of_substitute hname hother hvalue hfilling
    intro source template hparts hnames
    exact h source template values hparts (forall_mem_pair hnames hvalue hfilling)
  · intro h source template values hparts hvalues
    exact expand_rendered hparts hvalues (h.own hparts hvalues)

/-- What `expand_each` needs of the names without a list. -/
theorem ExpandsEachExactly.ones (h : ExpandsEachExactly vars) :
    JoinsNothing (textOf vars none) := by
  refine joinsNothing_of_unjoined fun values name other hname hother hvalue hfilling => ?_
  apply unjoined_of_substitute hname hother (valueOf_of_textOf hvalue) (valueOf_of_textOf hfilling)
  intro source template hparts hnames
  have hones : ∀ name ∈ names template, vars name = some (.one (values name)) :=
    forall_mem_pair hnames (vars_of_textOf hvalue) (vars_of_textOf hfilling)
  exact (expandEach_one hparts hones).mp ((h source template values hparts).1 hones)

/-- What `expand_each` needs of a list's entry. -/
theorem ExpandsEachExactly.entries (h : ExpandsEachExactly vars) {list entry : String}
    {texts : List String} (hlist : vars list = some (.many texts)) (hentry : entry ∈ texts) :
    JoinsNothing (textOf vars (some (list, entry))) := by
  refine joinsNothing_of_unjoined fun values name other hname hother hvalue hfilling => ?_
  by_cases hmem : list ∈ [name, other]
  · have hself : textOf vars (some (list, entry)) list = some (values list) :=
      forall_mem_pair (P := fun name => textOf vars _ name = some (values name)) rfl hvalue hfilling
        list hmem
    have hsame : withEntry values list entry = values := by
      funext asked
      rw [withEntry]
      split
      next heq =>
        rw [textOf, if_pos rfl] at hself
        rw [heq]
        exact Option.some.inj hself
      next => rfl
    apply unjoined_of_substitute hname hother (valueOf_of_textOf hvalue)
      (valueOf_of_textOf hfilling)
    intro source template hparts hnames
    have hones : ∀ name ∈ names template, name ≠ list → vars name = some (.one (values name)) :=
      forall_mem_pair hnames (vars_of_ne · hvalue) (vars_of_ne · hfilling)
    rw [← hnames] at hmem
    have hall := (h source template values hparts).2 list hmem texts hlist hones
    rw [← hsame]
    exact (expandEach_each hparts hmem hlist hones).mp hall entry hentry
  · rw [List.mem_cons, List.mem_singleton, not_or] at hmem
    exact h.ones name other (values name) (values other) hname hother
      (textOf_of_vars (vars_of_ne (Ne.symm hmem.1) hvalue))
      (textOf_of_vars (vars_of_ne (Ne.symm hmem.2) hfilling))

theorem expandsEachExactly_iff : ExpandsEachExactly vars ↔ JoinsNothing (textOf vars none) ∧
    ∀ list texts, vars list = some (.many texts) →
      ∀ entry ∈ texts, JoinsNothing (textOf vars (some (list, entry))) := by
  constructor
  · exact fun h => ⟨h.ones, fun list texts hlist entry hentry => h.entries hlist hentry⟩
  · rintro ⟨hnone, heach⟩ source template values hparts
    refine ⟨fun hones => ?_, fun list hmem texts hlist hones => ?_⟩
    · rw [expandEach_one hparts hones]
      have hread : ∀ name ∈ names template, textOf vars none name = some (values name) :=
        fun name hname => textOf_of_vars (hones name hname)
      exact substitute_rendered hparts (fun name hname => valueOf_of_textOf (hread name hname))
        (hnone.own hparts hread)
    · rw [expandEach_each hparts hmem hlist hones]
      intro entry hentry
      have hread : ∀ name ∈ names template,
          textOf vars (some (list, entry)) name = some (withEntry values list entry name) :=
        fun name hname => textOf_withEntry (hones name hname)
      exact substitute_rendered hparts (fun name hname => valueOf_of_textOf (hread name hname))
        ((heach list texts hlist entry hentry).own hparts hread)

/-- Page content is not read as a template, whatever the template, exactly when no value makes a
placeholder with what stands around it. -/
theorem page_content_kept_iff (vars : Variables) :
    (ExpandsExactly vars ↔ JoinsNothing (valueOf vars none)) ∧
    (ExpandsEachExactly vars ↔ JoinsNothing (textOf vars none) ∧
      ∀ list texts, vars list = some (.many texts) →
        ∀ entry ∈ texts, JoinsNothing (textOf vars (some (list, entry)))) :=
  ⟨expandsExactly_iff, expandsEachExactly_iff⟩

/-- A page's text that names another variable is filled in with it. -/
theorem page_content_filled :
    ∃ (vars : Variables) (source : String) (template : List Part) (values : String → String),
      templateParts source = some template ∧
      (∀ name ∈ names template, vars name = some (.one (values name))) ∧
      rendered values template = "$\x7bb\x7dx" ∧ vars.expand source = .ok "xx" := by
  let values (name : String) : String := if name = "a" then "$\x7bb\x7d" else "x"
  let template : List Part := [.hole "a", .hole "b"]
  have hparts : templateParts "$\x7ba\x7d$\x7bb\x7d" = some template := by decide
  have hfirst : replacePlaceholder "$\x7ba\x7d$\x7bb\x7d" "a" "$\x7bb\x7d" =
      "$\x7bb\x7d$\x7bb\x7d" := by decide
  have hsecond : replacePlaceholder "$\x7bb\x7d$\x7bb\x7d" "b" "x" = "xx" := by decide
  refine ⟨fun name => some (.one (values name)), _, template, values, hparts, ?_, by decide, ?_⟩
  · exact fun _ _ => rfl
  · rw [Variables.expand, substitute_eq (templateParts_spec values hparts).1]
    change (Except.ok (replacePlaceholder (replacePlaceholder _ "a" "$\x7bb\x7d") "b" "x") :
      Except String String) = _
    rw [hfirst, hsecond]

end SiteRules

end RDownloader
