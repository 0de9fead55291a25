import Mathlib.Algebra.Order.BigOperators.Group.List
import Mathlib.Algebra.Order.Ring.Nat
import RDownloader.Torrent.GlobMeaning

/-!
# Letter case in exclusion patterns

Two letters go to lower case otherwise than by themselves: one becomes two, and a capital sigma
looks at what is around it. Without them patterns mean what is documented, and each text with one
of them is told wrong by some text without.
-/

namespace RDownloader

namespace Glob

open Wildcard

universe u

variable {γ : Type u} {f : Char → γ} {pattern path text : Text}

/-! ## Segments -/

theorem splitOn_map {g : Char → Char} (hg : ∀ c, g c = '/' ↔ c = '/') (text : Text) :
    (text.map g).splitOn '/' = (text.splitOn '/').map (List.map g) := by
  induction text with
  | nil => rfl
  | cons c text ih =>
    rw [List.map_cons, List.splitOn_cons_eq_if_modifyHead, List.splitOn_cons_eq_if_modifyHead, ih]
    obtain ⟨first, fields, hfields⟩ := List.exists_cons_of_ne_nil (List.splitOn_ne_nil '/' text)
    by_cases hc : c = '/'
    · simp [hc, (hg '/').mpr rfl]
    · simp [hc, hg c, hfields]

theorem not_mem_of_mem_splitOn {segment : Text} (h : segment ∈ text.splitOn '/') :
    '/' ∉ segment := fun hc => (Text.mem_of_mem_splitOn h hc).2 rfl

theorem fileName_mem (path : Text) : fileName path ∈ path.splitOn '/' := by
  have hne := List.splitOn_ne_nil '/' path
  rw [fileName, List.getLast?_eq_some_getLast hne, Option.getD_some]
  exact List.getLast_mem hne

theorem fileName_eq (h : '/' ∉ path) : fileName path = path := by
  rw [fileName, List.splitOn_eq_singleton h]
  rfl

/-- The code matches the documented way, on the texts in lower case. -/
theorem globMatch_iff (casing : Casing) (pattern path : Text) :
    globMatch casing pattern path = true ↔
      Documented id (casing.toLowercase pattern) (casing.toLowercase path) := by
  rw [globMatch, matchSegments_iff, Documented]
  split
  next => exact Iff.rfl
  next => rw [List.splitOn_eq_singleton (not_mem_of_mem_splitOn (fileName_mem _))]

/-! ## Counting letters -/

section

variable [DecidableEq γ] {letter : γ}

/-- How often a letter stands in a text. -/
def letterCount (f : Char → γ) (letter : γ) (text : Text) : Nat :=
  (text.map fun c => if f c = letter then 1 else 0).sum

theorem letterCount_splitOn (h : f '/' ≠ letter) (text : Text) :
    ((text.splitOn '/').map (letterCount f letter)).sum = letterCount f letter text := by
  induction text with
  | nil => rfl
  | cons c text ih =>
    obtain ⟨first, fields, hfields⟩ := List.exists_cons_of_ne_nil (List.splitOn_ne_nil '/' text)
    rw [List.splitOn_cons_eq_if_modifyHead]
    rw [hfields] at ih ⊢
    by_cases hc : c = '/'
    · simp [letterCount, hc, h] at ih ⊢
      exact ih
    · simp [letterCount, hc] at ih ⊢
      rw [Nat.add_assoc, ih]

theorem SegmentMatches.letterCount_le {subject : Text}
    (hmarks : ∀ mark ∈ ['*', '?', '/'], f mark ≠ letter) (h : SegmentMatches f pattern subject) :
    letterCount f letter pattern ≤ letterCount f letter subject := by
  have hweight : weight (fun c => if f c = letter then 1 else 0) ∘ token =
      fun c => if f c = letter then 1 else 0 := by
    funext c
    rw [Function.comp_apply, token]
    split
    next hc =>
      rw [hc, if_neg (hmarks '*' (by decide))]
      rfl
    next =>
      split
      next hc =>
        rw [hc, if_neg (hmarks '?' (by decide))]
        rfl
      next => rfl
  have hsum := h.sum_le (f := fun c => if f c = letter then 1 else 0)
    (g := fun c => if f c = letter then 1 else 0) fun a b hsame => by rw [hsame]
  rw [List.map_map, hweight] at hsum
  exact hsum

/-- Every letter of a pattern needs one of the path. -/
theorem Documented.letterCount_le (hmarks : ∀ mark ∈ ['*', '?', '/'], f mark ≠ letter)
    (h : Documented f pattern path) : letterCount f letter pattern ≤ letterCount f letter path := by
  have hslash := hmarks '/' (by decide)
  have hweight : weight (letterCount f letter) ∘ segmentToken = letterCount f letter := by
    funext segment
    rw [Function.comp_apply, segmentToken]
    split
    next hstars =>
      rw [hstars]
      simp [letterCount, hmarks '*' (by decide), weight]
    next => rfl
  have hsum := h.sum_le (f := letterCount f letter) (g := letterCount f letter)
    fun a b hsame => hsame.letterCount_le hmarks
  rw [List.map_map, hweight, letterCount_splitOn hslash] at hsum
  refine Nat.le_trans hsum ?_
  split
  next => exact Nat.le_of_eq (letterCount_splitOn hslash path)
  next =>
    rw [List.map_singleton, List.sum_singleton, ← letterCount_splitOn hslash path]
    exact List.le_sum_of_mem (List.mem_map_of_mem (fileName_mem path))

end

/-! ## A text matches itself -/

theorem documented_map {g g' : Char → Char} (hg : ∀ c, g c = '/' ↔ c = '/')
    (hg' : ∀ c, g' c = '/' ↔ c = '/') (hsame : ∀ c ∈ text, f (g c) = f (g' c)) :
    Documented f (text.map g) (text.map g') := by
  have hsegments : (if '/' ∈ text.map g then (text.map g').splitOn '/'
      else [fileName (text.map g')]) = (text.map g').splitOn '/' := by
    split
    next => rfl
    next hno =>
      have hno' : '/' ∉ text.map g' := by
        simp only [List.mem_map, not_exists, not_and, hg, hg'] at hno ⊢
        exact hno
      rw [fileName_eq hno', List.splitOn_eq_singleton hno']
  rw [Documented, hsegments, splitOn_map hg, splitOn_map hg', List.map_map]
  refine .of_fits ?_
  rw [List.forall₂_map_left_iff, List.forall₂_map_right_iff]
  refine List.forall₂_same.mpr fun segment hsegment => ?_
  show Fits _ (segmentToken (segment.map g)) (segment.map g')
  rw [segmentToken]
  split
  next => trivial
  next =>
    refine .of_fits ?_
    rw [List.map_map, List.forall₂_map_left_iff, List.forall₂_map_right_iff]
    refine List.forall₂_same.mpr fun c hc => ?_
    show Fits _ (token (g c)) (g' c)
    rw [token]
    split
    next => trivial
    next =>
      split
      next => trivial
      next => exact hsame c (Text.mem_of_mem_splitOn hsegment hc).1

end Glob

/-! ## Letter by letter -/

namespace Casing

open Glob

variable {casing : Casing} {text before : Text} {c : Char}

/-- A text whose letters go to lower case one by one: none becomes two letters, and no capital
sigma ends a word. -/
def Letterwise (casing : Casing) (text : Text) : Prop :=
  'İ' ∉ text ∧ ∀ before rest, text = before ++ 'Σ' :: rest →
    casing.mapUppercaseSigma before.reverse rest = 'σ'

/-- A text in lower case. -/
def Lowered (casing : Casing) (text : Text) : Prop := ∀ c ∈ text, casing.simple c = c

theorem ne_of_simple (h : casing.simple c = c) : c ≠ 'İ' ∧ c ≠ 'Σ' := by
  constructor
  · rintro rfl
    exact absurd (casing.simple_dotted_capital.symm.trans h) (by decide)
  · rintro rfl
    exact absurd (casing.simple_capital_sigma.symm.trans h) (by decide)

theorem lower_of_ne (h : c ≠ 'İ') : casing.lower c = [casing.simple c] := if_neg h

theorem lower_simple (h : c ≠ 'İ') : casing.lower (casing.simple c) = casing.lower c := by
  rw [lower_of_ne (ne_of_simple (casing.simple_simple c)).1, lower_of_ne h, casing.simple_simple]

theorem simple_small_sigma : casing.simple 'σ' = 'σ' := by
  rw [← casing.simple_capital_sigma, casing.simple_simple]

theorem simple_small_i : casing.simple 'i' = 'i' := by
  rw [← casing.simple_dotted_capital, casing.simple_simple]

theorem mapUppercaseSigma_cases (casing : Casing) (before rest : Text) :
    casing.mapUppercaseSigma before rest = 'ς' ∨ casing.mapUppercaseSigma before rest = 'σ' := by
  unfold mapUppercaseSigma
  split
  next => exact .inl rfl
  next => exact .inr rfl

theorem lowercaseAfter_cons_of_ne (hc : c ≠ 'Σ') (hdotted : c ≠ 'İ') (before text : Text) :
    casing.lowercaseAfter before (c :: text) =
      casing.simple c :: casing.lowercaseAfter (c :: before) text := by
  rw [lowercaseAfter, if_neg hc, lower_of_ne hdotted, List.singleton_append]

theorem lowercaseAfter_cons_sigma (before text : Text) :
    casing.lowercaseAfter before ('Σ' :: text) =
      casing.mapUppercaseSigma before text :: casing.lowercaseAfter ('Σ' :: before) text := rfl

theorem lowercaseAfter_cons_dotted (before text : Text) :
    casing.lowercaseAfter before ('İ' :: text) =
      'i' :: '\u0307' :: casing.lowercaseAfter ('İ' :: before) text := rfl

theorem lowered_lowercaseAfter (casing : Casing) (before text : Text) :
    casing.Lowered (casing.lowercaseAfter before text) := by
  induction text generalizing before with
  | nil => exact nofun
  | cons c text ih =>
    by_cases hsigma : c = 'Σ'
    · rw [hsigma, lowercaseAfter_cons_sigma]
      refine List.forall_mem_cons.mpr ⟨?_, ih _⟩
      rcases casing.mapUppercaseSigma_cases before text with h | h
      · rw [h, casing.simple_final_sigma]
      · rw [h, simple_small_sigma]
    · by_cases hdotted : c = 'İ'
      · rw [hdotted, lowercaseAfter_cons_dotted]
        exact List.forall_mem_cons.mpr ⟨simple_small_i,
          List.forall_mem_cons.mpr ⟨casing.simple_dot_above, ih _⟩⟩
      · rw [lowercaseAfter_cons_of_ne hsigma hdotted]
        exact List.forall_mem_cons.mpr ⟨casing.simple_simple c, ih _⟩

theorem Lowered.lowercaseAfter (h : casing.Lowered text) (before : Text) :
    casing.lowercaseAfter before text = text := by
  induction text generalizing before with
  | nil => rfl
  | cons c text ih =>
    obtain ⟨hc, hrest⟩ := List.forall_mem_cons.mp h
    obtain ⟨hdotted, hsigma⟩ := ne_of_simple hc
    rw [lowercaseAfter_cons_of_ne hsigma hdotted, hc, ih hrest]

theorem Lowered.letterwise (h : casing.Lowered text) : casing.Letterwise text := by
  refine ⟨fun hmem => (ne_of_simple (h _ hmem)).1 rfl, fun before rest htext => ?_⟩
  have hmem : 'Σ' ∈ text := htext ▸ List.mem_append_right _ List.mem_cons_self
  exact absurd rfl (ne_of_simple (h _ hmem)).2

theorem lowered_map (casing : Casing) (text : Text) : casing.Lowered (text.map casing.simple) :=
  List.forall_mem_map.mpr fun c _ => casing.simple_simple c

/-- Every capital sigma of the text is put in lower case as a small one. -/
def SmallSigmas (casing : Casing) (before text : Text) : Prop :=
  ∀ front rest, text = front ++ 'Σ' :: rest →
    casing.mapUppercaseSigma (front.reverse ++ before) rest = 'σ'

theorem smallSigmas_cons_iff : casing.SmallSigmas before (c :: text) ↔
    (c = 'Σ' → casing.mapUppercaseSigma before text = 'σ') ∧
      casing.SmallSigmas (c :: before) text := by
  constructor
  · intro h
    refine ⟨fun hc => h [] text (by rw [hc]; rfl), fun front rest htext => ?_⟩
    have hsmall := h (c :: front) rest (by rw [htext]; rfl)
    rwa [List.reverse_cons, List.append_assoc] at hsmall
  · rintro ⟨hfirst, hrest⟩ front rest htext
    cases front with
    | nil =>
      obtain ⟨rfl, rfl⟩ := List.cons.inj htext
      exact hfirst rfl
    | cons d front =>
      obtain ⟨rfl, rfl⟩ := List.cons.inj htext
      rw [List.reverse_cons, List.append_assoc]
      exact hrest front rest rfl

theorem letterCount_cons {γ : Type*} [DecidableEq γ] (f : Char → γ) (letter : γ) (c : Char)
    (text : Text) : letterCount f letter (c :: text) =
      (if f c = letter then 1 else 0) + letterCount f letter text := rfl

/-- Without the letter that becomes two, each final sigma takes the place of a small one. -/
theorem exists_finals (casing : Casing) (hdotted : 'İ' ∉ text) (before : Text) : ∃ finals,
    letterCount id 'ς' (casing.lowercaseAfter before text) =
        letterCount id 'ς' (text.map casing.simple) + finals ∧
      letterCount id 'σ' (casing.lowercaseAfter before text) + finals =
        letterCount id 'σ' (text.map casing.simple) ∧
      (finals = 0 ↔ casing.SmallSigmas before text) := by
  induction text generalizing before with
  | nil => exact ⟨0, rfl, rfl, by simp [SmallSigmas]⟩
  | cons c text ih =>
    rw [List.mem_cons, not_or] at hdotted
    obtain ⟨finals, hfinal, hsmall, hzero⟩ := ih hdotted.2 (c :: before)
    rw [smallSigmas_cons_iff, List.map_cons]
    by_cases hc : c = 'Σ'
    · subst hc
      rw [lowercaseAfter_cons_sigma, casing.simple_capital_sigma]
      simp only [letterCount_cons]
      rcases casing.mapUppercaseSigma_cases before text with h | h
      · rw [h]
        refine ⟨finals + 1, ?_, ?_, ?_⟩
        · simp [hfinal]
          omega
        · simp [← hsmall]
          omega
        · simp
      · rw [h, hfinal, ← hsmall]
        exact ⟨finals, (Nat.add_assoc ..).symm, Nat.add_assoc .., by simp [hzero]⟩
    · rw [lowercaseAfter_cons_of_ne hc (Ne.symm hdotted.1)]
      simp only [letterCount_cons]
      rw [hfinal, ← hsmall]
      exact ⟨finals, (Nat.add_assoc ..).symm, Nat.add_assoc .., by simp [hzero, hc]⟩

/-- A text goes to lower case letter by letter exactly when it is letterwise. -/
theorem Letterwise.toLowercase (h : casing.Letterwise text) :
    casing.toLowercase text = text.map casing.simple := by
  have hafter (before : Text) (hdotted : 'İ' ∉ text) (hsmall : casing.SmallSigmas before text) :
      casing.lowercaseAfter before text = text.map casing.simple := by
    clear h
    induction text generalizing before with
    | nil => rfl
    | cons c text ih =>
      rw [List.mem_cons, not_or] at hdotted
      rw [smallSigmas_cons_iff] at hsmall
      rw [List.map_cons, ← ih (c :: before) hdotted.2 hsmall.2]
      by_cases hc : c = 'Σ'
      · rw [hc, lowercaseAfter_cons_sigma, hsmall.1 hc, casing.simple_capital_sigma]
      · rw [lowercaseAfter_cons_of_ne hc (Ne.symm hdotted.1)]
  exact hafter [] h.1 fun front rest htext => by rw [List.append_nil]; exact h.2 front rest htext

/-- The letter that becomes two adds a small letter that was none before. -/
theorem letterCount_small_i (before text : Text) :
    letterCount casing.lower ['i'] (casing.lowercaseAfter before text) =
      letterCount casing.lower ['i'] text + text.count 'İ' := by
  have hlower {d : Char} (h : casing.simple d = d) : casing.lower d = [d] := by
    rw [lower_of_ne (ne_of_simple h).1, h]
  induction text generalizing before with
  | nil => rfl
  | cons c text ih =>
    by_cases hsigma : c = 'Σ'
    · have hcapital : casing.lower 'Σ' = ['σ'] := by
        rw [lower_of_ne (by decide), casing.simple_capital_sigma]
      rw [hsigma, lowercaseAfter_cons_sigma, letterCount_cons, letterCount_cons, ih, hcapital]
      rcases casing.mapUppercaseSigma_cases before text with h | h
      · rw [h, hlower casing.simple_final_sigma]
        simp
      · rw [h, hlower simple_small_sigma]
        simp
    · by_cases hdotted : c = 'İ'
      · have htwo : casing.lower 'İ' = ['i', '\u0307'] := rfl
        rw [hdotted, lowercaseAfter_cons_dotted, letterCount_cons, letterCount_cons,
          letterCount_cons, ih, hlower simple_small_i, hlower casing.simple_dot_above, htwo,
          List.count_cons_self]
        simp
        omega
      · rw [lowercaseAfter_cons_of_ne hsigma hdotted, letterCount_cons, letterCount_cons, ih,
          lower_simple hdotted, List.count_cons_of_ne hdotted]
        omega

end Casing

namespace Glob

open Casing Wildcard

universe u

variable {γ : Type u} {casing : Casing} {pattern path text : Text}

theorem Lowered.toLowercase_eq (h : casing.Lowered text) : casing.toLowercase text = text :=
  h.lowercaseAfter []

theorem lowered_toLowercase (casing : Casing) (text : Text) :
    casing.Lowered (casing.toLowercase text) := lowered_lowercaseAfter casing [] text

theorem simple_eq_slash_iff (casing : Casing) (c : Char) : casing.simple c = '/' ↔ c = '/' :=
  casing.simple_eq_mark c '/' (by decide)

theorem token_simple (casing : Casing) :
    token ∘ casing.simple = Token.map casing.simple ∘ token := by
  funext c
  rw [Function.comp_apply, Function.comp_apply, token, token]
  by_cases hstar : c = '*'
  · rw [if_pos hstar, if_pos ((casing.simple_eq_mark c '*' (by decide)).mpr hstar)]
    rfl
  · rw [if_neg hstar, if_neg (mt (casing.simple_eq_mark c '*' (by decide)).mp hstar)]
    by_cases hmark : c = '?'
    · rw [if_pos hmark, if_pos ((casing.simple_eq_mark c '?' (by decide)).mpr hmark)]
      rfl
    · rw [if_neg hmark, if_neg (mt (casing.simple_eq_mark c '?' (by decide)).mp hmark)]
      rfl

theorem map_simple_eq_stars (casing : Casing) (segment : Text) :
    segment.map casing.simple = "**".toList ↔ segment = "**".toList := by
  have hstar (c : Char) := casing.simple_eq_mark c '*' (by decide)
  match segment with
  | [] => simp
  | [_] => simp
  | [a, b] => simp [hstar]
  | _ :: _ :: _ :: _ => simp

theorem segmentToken_map_simple (casing : Casing) :
    segmentToken ∘ List.map casing.simple = Token.map (List.map casing.simple) ∘ segmentToken := by
  funext segment
  rw [Function.comp_apply, Function.comp_apply, segmentToken, segmentToken]
  by_cases hstars : segment = "**".toList
  · rw [if_pos hstars, if_pos ((map_simple_eq_stars casing segment).mpr hstars)]
    rfl
  · rw [if_neg hstars, if_neg (mt (map_simple_eq_stars casing segment).mp hstars)]
    rfl

theorem lower_eq_iff {a b : Char} (ha : a ≠ 'İ') (hb : b ≠ 'İ') :
    casing.lower a = casing.lower b ↔ casing.simple a = casing.simple b := by
  rw [lower_of_ne ha, lower_of_ne hb, List.cons.injEq, and_iff_left rfl]

theorem mem_of_letter_token {a : Char} (h : Token.letter a ∈ text.map token) : a ∈ text := by
  obtain ⟨c, hc, htoken⟩ := List.mem_map.mp h
  rw [token] at htoken
  split at htoken
  next => cases htoken
  next =>
    split at htoken
    next => cases htoken
    next =>
      cases htoken
      exact hc

theorem segmentMatches_map_simple_iff {subject : Text} (hpattern : 'İ' ∉ pattern)
    (hsubject : 'İ' ∉ subject) :
    SegmentMatches id (pattern.map casing.simple) (subject.map casing.simple) ↔
      SegmentMatches casing.lower pattern subject := by
  have hne {a : Char} {text : Text} (h : 'İ' ∉ text) (ha : a ∈ text) : a ≠ 'İ' :=
    fun heq => h (heq ▸ ha)
  rw [SegmentMatches, List.map_map, token_simple, ← List.map_map, matches_map_iff]
  constructor
  · intro h
    exact h.mono fun a ha b hb hsame =>
      (lower_eq_iff (hne hpattern (mem_of_letter_token ha)) (hne hsubject hb)).mpr hsame
  · intro h
    exact h.mono fun a ha b hb hsame =>
      (lower_eq_iff (hne hpattern (mem_of_letter_token ha)) (hne hsubject hb)).mp hsame

theorem mem_of_letter_segment {segment : Text} {segments : List Text}
    (h : Token.letter segment ∈ segments.map segmentToken) : segment ∈ segments := by
  obtain ⟨other, hother, htoken⟩ := List.mem_map.mp h
  rw [segmentToken] at htoken
  split at htoken
  next => cases htoken
  next =>
    cases htoken
    exact hother

theorem fileName_map_simple (casing : Casing) (path : Text) :
    fileName (path.map casing.simple) = (fileName path).map casing.simple := by
  have hne := List.splitOn_ne_nil '/' path
  rw [fileName, fileName, splitOn_map (simple_eq_slash_iff casing), List.getLast?_map,
    List.getLast?_eq_some_getLast hne]
  rfl

/-- Letters that go to lower case one by one are compared the documented way. -/
theorem documented_map_simple_iff (hpattern : 'İ' ∉ pattern) (hpath : 'İ' ∉ path) :
    Documented id (pattern.map casing.simple) (path.map casing.simple) ↔
      Documented casing.lower pattern path := by
  have hslash : '/' ∈ pattern.map casing.simple ↔ '/' ∈ pattern := by
    simp [List.mem_map, simple_eq_slash_iff]
  have hsubject : (if '/' ∈ pattern.map casing.simple then (path.map casing.simple).splitOn '/'
      else [fileName (path.map casing.simple)]) =
        (if '/' ∈ pattern then path.splitOn '/' else [fileName path]).map
          (List.map casing.simple) := by
    rw [if_congr hslash rfl rfl]
    split
    next => exact splitOn_map (simple_eq_slash_iff casing) path
    next => rw [fileName_map_simple, List.map_singleton]
  have hpatternSegment {segment : Text} (h : Token.letter segment ∈
      (pattern.splitOn '/').map segmentToken) : 'İ' ∉ segment := fun hmem =>
    hpattern (Text.mem_of_mem_splitOn (mem_of_letter_segment h) hmem).1
  have hpathSegment {segment : Text} (h : segment ∈
      if '/' ∈ pattern then path.splitOn '/' else [fileName path]) : 'İ' ∉ segment := by
    split at h
    next => exact fun hmem => hpath (Text.mem_of_mem_splitOn h hmem).1
    next =>
      rw [List.mem_singleton.mp h]
      exact fun hmem => hpath (Text.mem_of_mem_splitOn (fileName_mem path) hmem).1
  rw [Documented, hsubject, splitOn_map (simple_eq_slash_iff casing), List.map_map,
    segmentToken_map_simple, ← List.map_map, matches_map_iff, Documented]
  constructor
  · intro h
    exact h.mono fun a ha b hb hsame =>
      (segmentMatches_map_simple_iff (hpatternSegment ha) (hpathSegment hb)).mp hsame
  · intro h
    exact h.mono fun a ha b hb hsame =>
      (segmentMatches_map_simple_iff (hpatternSegment ha) (hpathSegment hb)).mpr hsame

/-- The code agrees with what is documented. -/
def Agrees (casing : Casing) (pattern path : Text) : Prop :=
  globMatch casing pattern path = true ↔ Documented casing.lower pattern path

theorem agrees_of_letterwise (hpattern : casing.Letterwise pattern)
    (hpath : casing.Letterwise path) : Agrees casing pattern path := by
  rw [Agrees, globMatch_iff, hpattern.toLowercase, hpath.toLowercase,
    documented_map_simple_iff hpattern.1 hpath.1]

theorem simple_mark (casing : Casing) {mark : Char} (h : mark ∈ ['*', '?', '/']) :
    casing.simple mark = mark := (casing.simple_eq_mark mark mark h).mpr rfl

theorem lower_mark_ne (casing : Casing) {letter : Text} (h : letter ≠ ['*'] ∧ letter ≠ ['?'] ∧
    letter ≠ ['/']) : ∀ mark ∈ ['*', '?', '/'], casing.lower mark ≠ letter := by
  intro mark hmark
  rw [lower_of_ne (ne_of_simple (simple_mark casing hmark)).1, simple_mark casing hmark]
  simp only [List.mem_cons, List.not_mem_nil, or_false] at hmark
  rcases hmark with rfl | rfl | rfl
  · exact Ne.symm h.1
  · exact Ne.symm h.2.1
  · exact Ne.symm h.2.2

theorem documented_self (f : Char → γ) (text : Text) : Documented f text text := by
  have hself : Documented f (text.map id) (text.map id) :=
    documented_map (fun _ => Iff.rfl) (fun _ => Iff.rfl) fun _ _ => rfl
  rwa [List.map_id] at hself

theorem letterCount_pos {γ : Type*} [DecidableEq γ] {f : Char → γ} {c : Char} (h : c ∈ text) :
    0 < letterCount f (f c) text := by
  have hle := List.le_sum_of_mem (List.mem_map_of_mem (f := fun d => if f d = f c then 1 else 0) h)
  rw [if_pos rfl] at hle
  exact hle

theorem letterCount_eq_zero {γ : Type*} [DecidableEq γ] {f : Char → γ} {letter : γ}
    (h : ∀ c ∈ text, f c ≠ letter) : letterCount f letter text = 0 := by
  rw [letterCount, List.map_congr_left fun c hc => if_neg (h c hc)]
  simp

/-- The letter that becomes two is matched with the two by the code alone. -/
theorem disagreement_of_dotted (h : 'İ' ∈ text) :
    ¬ Agrees casing (casing.toLowercase text) text ∧
      ¬ Agrees casing text (casing.toLowercase text) := by
  have hlowered := lowered_toLowercase casing text
  have hcode : Documented id (casing.toLowercase text) (casing.toLowercase text) :=
    documented_self id _
  constructor
  · intro hagrees
    rw [Agrees, globMatch_iff, Lowered.toLowercase_eq hlowered] at hagrees
    have hle := (hagrees.mp hcode).letterCount_le
      (lower_mark_ne casing (by decide : ['i'] ≠ ['*'] ∧ _ ∧ _))
    rw [toLowercase, letterCount_small_i] at hle
    have hpos := List.count_pos_iff.mpr h
    omega
  · intro hagrees
    rw [Agrees, globMatch_iff, Lowered.toLowercase_eq hlowered] at hagrees
    have hle := (hagrees.mp hcode).letterCount_le
      (lower_mark_ne casing (by decide : ['i', '\u0307'] ≠ ['*'] ∧ _ ∧ _))
    have hzero : letterCount casing.lower ['i', '\u0307'] (casing.toLowercase text) = 0 := by
      refine letterCount_eq_zero fun c hc heq => ?_
      rw [lower_of_ne (ne_of_simple (hlowered c hc)).1] at heq
      cases congrArg List.length heq
    have hpos : 0 < letterCount casing.lower ['i', '\u0307'] text :=
      letterCount_pos (f := casing.lower) h
    omega

/-- A final sigma is the same letter as a small one, and the code tells them apart. -/
theorem disagreement_of_final (hdotted : 'İ' ∉ text) (h : ¬ casing.SmallSigmas [] text) :
    ¬ Agrees casing (text.map casing.simple) text ∧
      ¬ Agrees casing text (text.map casing.simple) := by
  have hlowered := lowered_map casing text
  have hsame (c : Char) (hc : c ∈ text) : casing.lower (casing.simple c) = casing.lower c :=
    lower_simple fun heq => hdotted (heq ▸ hc)
  obtain ⟨finals, hfinal, hsmall, hzero⟩ := exists_finals casing hdotted []
  have hpos : finals ≠ 0 := mt hzero.mp h
  have hmarks (letter : Char) (hletter : letter ∉ ['*', '?', '/']) :
      ∀ mark ∈ ['*', '?', '/'], id mark ≠ letter := fun mark hmark heq => hletter (heq ▸ hmark)
  constructor
  · intro hagrees
    rw [Agrees, globMatch_iff, Lowered.toLowercase_eq hlowered] at hagrees
    have hdocumented : Documented casing.lower (text.map casing.simple) (text.map id) :=
      documented_map (simple_eq_slash_iff casing) (fun _ => Iff.rfl) hsame
    rw [List.map_id] at hdocumented
    have hle := (hagrees.mpr hdocumented).letterCount_le (hmarks 'σ' (by decide))
    rw [toLowercase] at hle
    omega
  · intro hagrees
    rw [Agrees, globMatch_iff, Lowered.toLowercase_eq hlowered] at hagrees
    have hdocumented : Documented casing.lower (text.map id) (text.map casing.simple) :=
      documented_map (fun _ => Iff.rfl) (simple_eq_slash_iff casing) fun c hc => (hsame c hc).symm
    rw [List.map_id] at hdocumented
    have hle := (hagrees.mpr hdocumented).letterCount_le (hmarks 'ς' (by decide))
    rw [toLowercase] at hle
    omega

/-- A text that is not letterwise is told wrong, as a path and as a pattern. -/
theorem exists_disagreement (h : ¬ casing.Letterwise text) :
    ∃ other, casing.Letterwise other ∧ ¬ Agrees casing other text ∧ ¬ Agrees casing text other := by
  by_cases hdotted : 'İ' ∈ text
  · exact ⟨casing.toLowercase text, (lowered_toLowercase casing text).letterwise,
      disagreement_of_dotted hdotted⟩
  · refine ⟨text.map casing.simple, (lowered_map casing text).letterwise,
      disagreement_of_final hdotted fun hsmall => h ⟨hdotted, fun front rest htext => ?_⟩⟩
    have hsigma := hsmall front rest htext
    rwa [List.append_nil] at hsigma

/-- Exclusion patterns mean what is documented exactly for the texts that go to lower case letter
by letter: every other path is told wrong by some such pattern, and every other pattern of some
such path. -/
theorem agrees_iff_letterwise (casing : Casing) :
    (∀ path, (∀ pattern, casing.Letterwise pattern →
        (globMatch casing pattern path = true ↔ Documented casing.lower pattern path)) ↔
      casing.Letterwise path) ∧
    (∀ pattern, (∀ path, casing.Letterwise path →
        (globMatch casing pattern path = true ↔ Documented casing.lower pattern path)) ↔
      casing.Letterwise pattern) := by
  constructor
  · intro path
    refine ⟨fun h => Classical.byContradiction fun hnot => ?_,
      fun hpath pattern hpattern => agrees_of_letterwise hpattern hpath⟩
    obtain ⟨pattern, hpattern, hdiffer, -⟩ := exists_disagreement hnot
    exact hdiffer (h pattern hpattern)
  · intro pattern
    refine ⟨fun h => Classical.byContradiction fun hnot => ?_,
      fun hpattern path hpath => agrees_of_letterwise hpattern hpath⟩
    obtain ⟨path, hpath, -, hdiffer⟩ := exists_disagreement hnot
    exact hdiffer (h path hpath)

/-- The simple lower-case mapping of a few letters. -/
def someSimple (c : Char) : Char :=
  if c = 'Σ' then 'σ' else if c = 'İ' then 'i' else Text.asciiLowercase c

theorem someSimple_of_ne {c : Char} (hsigma : c ≠ 'Σ') (hdotted : c ≠ 'İ') :
    someSimple c = Text.asciiLowercase c := by
  rw [someSimple, if_neg hsigma, if_neg hdotted]

theorem someSimple_eq_mark (c : Char) :
    ∀ mark ∈ ['*', '?', '/'], someSimple c = mark ↔ c = mark := by
  intro mark hmark
  obtain ⟨hlow, hne⟩ : mark.toNat < 65 ∧ 'σ' ≠ mark ∧ 'i' ≠ mark ∧ 'Σ' ≠ mark ∧ 'İ' ≠ mark := by
    simp only [List.mem_cons, List.not_mem_nil, or_false] at hmark
    rcases hmark with rfl | rfl | rfl <;> decide
  by_cases hsigma : c = 'Σ'
  · simp [hsigma, someSimple, hne]
  · by_cases hdotted : c = 'İ'
    · simp [hdotted, someSimple, hne]
    · rw [someSimple_of_ne hsigma hdotted, Text.asciiLowercase_eq_iff hlow]

theorem someSimple_someSimple (c : Char) : someSimple (someSimple c) = someSimple c := by
  by_cases hsigma : c = 'Σ'
  · rw [hsigma]
    decide
  · by_cases hdotted : c = 'İ'
    · rw [hdotted]
      decide
    · have hkept {d : Char} (hd : 122 < d.toNat) (hc : c ≠ d) : Text.asciiLowercase c ≠ d := by
        rw [ne_eq, ← Char.toNat_inj] at hc ⊢
        rw [Text.toNat_asciiLowercase]
        split <;> omega
      rw [someSimple_of_ne hsigma hdotted,
        someSimple_of_ne (hkept (by decide) hsigma) (hkept (by decide) hdotted),
        Text.asciiLowercase_asciiLowercase]

/-- The tables of a few letters. -/
def someCasing : Casing where
  simple := someSimple
  cased c := c.isAlpha || c = 'Σ' || c = 'σ' || c = 'ς' || c = 'İ'
  caseIgnorable c := c = '.' || c = '\u0307'
  simple_simple := someSimple_someSimple
  simple_capital_sigma := by decide
  simple_final_sigma := by decide
  simple_dotted_capital := by decide
  simple_dot_above := by decide
  simple_eq_mark := someSimple_eq_mark

/-- A letter that becomes two is more than one character to the code. -/
theorem mark_misses_letter : ¬ ∀ (casing : Casing) (pattern path : Text),
    globMatch casing pattern path = true ↔ Documented casing.lower pattern path := by
  intro h
  have hdocumented : Documented someCasing.lower ['?'] ['İ'] :=
    .letter (.one .nil) .nil
  have hcode := (globMatch_iff someCasing ['?'] ['İ']).mp ((h _ _ _).mpr hdocumented)
  have hsegment : SegmentMatches id ['?'] ['i', '\u0307'] := (matches_letter_iff.mp hcode).1
  exact not_matches_nil_cons (matches_one_iff.mp hsegment)

end Glob
end RDownloader
