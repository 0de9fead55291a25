import Mathlib.Data.List.Induction
import RDownloader.Redact.Redaction

/-!
# Tokens and what begins one

Where a token ends is told from its characters, before the library sees it.
-/

namespace RDownloader

namespace Redact

open Text

variable {text a b rest : Text} {c : Char}

/-- A text of sentence punctuation only. -/
def AllClosing (text : Text) : Prop := ∀ c ∈ text, isClosing c = true

/-- A text without stops. -/
def NoStop (text : Text) : Prop := ∀ c ∈ text, isStop c = false

theorem giveBack_suffix (text : Text) : ∃ back, text = back ++ giveBack text ∧ AllClosing back := by
  induction text with
  | nil => exact ⟨[], rfl, fun _ h => nomatch h⟩
  | cons c text ih =>
    rw [giveBack]
    split
    · exact ⟨[], rfl, fun _ h => nomatch h⟩
    · split
      next hclosing =>
        obtain ⟨back, hback, hall⟩ := ih
        refine ⟨c :: back, by rw [List.cons_append, ← hback], ?_⟩
        intro d hd
        rcases List.mem_cons.mp hd with rfl | hd
        · exact hclosing
        · exact hall d hd
      · exact ⟨[], rfl, fun _ h => nomatch h⟩

theorem run_append_of_noStop (h : NoStop a) (b : Text) : run (a ++ b) = a ++ run b := by
  rw [run, run, List.takeWhile_append_of_pos]
  intro c hc
  rw [h c hc]
  rfl

theorem run_stop (h : isStop c = true) (b : Text) : run (c :: b) = [] := by
  rw [run, List.takeWhile_cons_of_neg]
  rw [h]
  exact Bool.false_ne_true

theorem noStop_run (text : Text) : NoStop (run text) := by
  intro c hc
  have hall := List.all_takeWhile (p := (!isStop ·)) (l := text)
  simpa using List.all_eq_true.mp hall c hc

/-- What follows a run begins with a stop, if with anything. -/
theorem exists_run (text : Text) :
    ∃ rest, text = run text ++ rest ∧ ∀ c ∈ rest.head?, isStop c = true := by
  refine ⟨text.dropWhile (!isStop ·), List.takeWhile_append_dropWhile.symm, fun c hc => ?_⟩
  have hhead := List.head?_dropWhile_not (!isStop ·) text
  rw [Option.mem_def.mp hc] at hhead
  simpa using hhead

theorem token_split (text : Text) : ∃ back, run text = token text ++ back ∧ AllClosing back := by
  obtain ⟨back, hback, hall⟩ := giveBack_suffix (run text).reverse
  refine ⟨back.reverse, ?_, fun c hc => hall c (List.mem_reverse.mp hc)⟩
  rw [token, ← List.reverse_append, ← hback, List.reverse_reverse]

theorem token_eq_of_run (h : run a = run b) : token a = token b := by rw [token, h, token]

theorem noStop_token (text : Text) : NoStop (token text) := by
  obtain ⟨back, hback, -⟩ := token_split text
  intro c hc
  exact noStop_run text c (hback ▸ List.mem_append_left back hc)

theorem run_eq (h : text = token text ++ rest) : run text = token text ++ run rest :=
  (congrArg run h).trans (run_append_of_noStop (noStop_token text) rest)

/-- What is behind a token begins with what was given back. -/
theorem allClosing_rest (h : text = token text ++ rest) : AllClosing (run rest) := by
  obtain ⟨back, hback, hall⟩ := token_split text
  rwa [List.append_cancel_left ((run_eq h).symm.trans hback)]

theorem token_eq_nil (h : token text = []) : AllClosing (run text) := by
  obtain ⟨back, hback, hall⟩ := token_split text
  rwa [hback, h, List.nil_append]

theorem exists_rest (text : Text) : ∃ rest, text = token text ++ rest := by
  obtain ⟨back, hback, -⟩ := token_split text
  obtain ⟨rest, htext, -⟩ := exists_run text
  exact ⟨back ++ rest, by rw [← List.append_assoc, ← hback, ← htext]⟩

/-! ### What is given back -/

/-- The placeholder without its last bracket. -/
def openPlaceholder : Text := "[redacted".toList

theorem placeholder_reverse : placeholder.reverse = ']' :: openPlaceholder.reverse := by
  decide

/-- Punctuation behind a text is given back, unless it closes a placeholder. -/
theorem giveBack_append (hback : AllClosing b)
    (h : openPlaceholder <:+ a → b.head? ≠ some ']') :
    giveBack (a ++ b).reverse = giveBack a.reverse := by
  induction b using List.reverseRecOn with
  | nil => rw [List.append_nil]
  | append_singleton b c ih =>
    have hc := hback c (by simp)
    have hb : AllClosing b := fun d hd => hback d (List.mem_append_left _ hd)
    have hplaceholder : placeholder.reverse.isPrefixOf (c :: (a ++ b).reverse) = false := by
      rw [Bool.eq_false_iff, ne_eq, List.isPrefixOf_iff_prefix, placeholder_reverse]
      intro hprefix
      obtain ⟨hlast, hopen⟩ := List.cons_prefix_cons.mp hprefix
      rcases List.eq_nil_or_concat b with rfl | ⟨b, d, rfl⟩
      · rw [List.append_nil] at hopen
        rw [← hlast] at h
        exact h (List.reverse_prefix.mp hopen) rfl
      · rw [List.concat_eq_append, ← List.append_assoc, List.reverse_append] at hopen
        have hd := hb d (by simp)
        obtain ⟨rfl, -⟩ := List.cons_prefix_cons.mp hopen
        revert hd
        decide
    rw [← List.append_assoc, List.reverse_append, List.reverse_singleton, List.singleton_append,
      giveBack, if_neg (by rw [hplaceholder]; exact Bool.false_ne_true), if_pos hc]
    refine ih hb fun hopen hhead => h hopen ?_
    rw [List.head?_append, hhead]
    rfl

/-- A text that the token ends at. -/
def Kept (text : Text) : Prop :=
  (∀ c ∈ text.getLast?, isClosing c = false) ∨ placeholder <:+ text

theorem giveBack_of_kept (h : Kept a) : giveBack a.reverse = a.reverse := by
  rcases List.eq_nil_or_concat a with rfl | ⟨a, c, rfl⟩
  · rfl
  · rw [List.concat_eq_append] at h ⊢
    rw [List.reverse_append, List.reverse_singleton, List.singleton_append, giveBack]
    split
    · rfl
    next hplaceholder =>
      rcases h with h | h
      · rw [h c (by simp), if_neg Bool.false_ne_true]
      · refine absurd (List.isPrefixOf_iff_prefix.mpr ?_) hplaceholder
        have hprefix := List.reverse_prefix.mpr h
        rwa [List.reverse_append] at hprefix

/-- What is read at the beginning of a text that the token ends at. -/
theorem token_of_kept (hstop : NoStop a) (hkept : Kept a) (hclosing : AllClosing (run b))
    (hopen : openPlaceholder <:+ a → (run b).head? ≠ some ']') : token (a ++ b) = a := by
  rw [token, run_append_of_noStop hstop, giveBack_append hclosing hopen, giveBack_of_kept hkept,
    List.reverse_reverse]

theorem kept_giveBack (text : Text) : Kept (giveBack text).reverse := by
  induction text with
  | nil => exact .inl fun _ h => nomatch h
  | cons c text ih =>
    rw [giveBack]
    split
    next hplaceholder =>
      exact .inr (List.reverse_prefix.mp (by
        rw [List.reverse_reverse]
        exact List.isPrefixOf_iff_prefix.mp hplaceholder))
    · split
      · exact ih
      next hclosing =>
        refine .inl fun d hd => ?_
        rw [List.getLast?_reverse] at hd
        cases hd
        exact Bool.eq_false_iff.mpr hclosing

theorem kept_token (text : Text) : Kept (token text) := kept_giveBack (run text).reverse

/-- A bracket that closes a placeholder is not given back. -/
theorem rest_of_open (h : text = token text ++ rest) (hopen : openPlaceholder <:+ token text) :
    (run rest).head? ≠ some ']' := by
  intro hhead
  obtain ⟨b, hb⟩ := List.head?_eq_some_iff.mp hhead
  have hrun := run_eq h
  have hall := allClosing_rest h
  rw [hb] at hrun hall
  have htoken : token text = token text ++ [']'] := by
    have hback : AllClosing b := fun c hc => hall c (List.mem_cons_of_mem _ hc)
    have hplaceholder : placeholder <:+ token text ++ [']'] := by
      obtain ⟨front, hfront⟩ := hopen
      exact ⟨front, by rw [← hfront, List.append_assoc]; rfl⟩
    have hclosed : ¬ openPlaceholder <:+ token text ++ [']'] := by
      rintro ⟨front, hfront⟩
      have hlast := congrArg List.getLast? hfront
      have hopen : openPlaceholder.getLast? = some 'd' := by decide
      rw [List.getLast?_append, List.getLast?_append, hopen, List.getLast?_singleton,
        Option.some_or, Option.some_or] at hlast
      revert hlast
      decide
    conv => lhs; rw [token, hrun, ← List.singleton_append, ← List.append_assoc]
    rw [giveBack_append hback fun hopen => absurd hopen hclosed,
      giveBack_of_kept (.inr hplaceholder), List.reverse_reverse]
  have hlength := congrArg List.length htoken
  rw [List.length_append] at hlength
  exact absurd hlength (by simp)

/-! ## What pieces begin with -/

/-- What the scan looks for. -/
def patterns : List Text := markers ++ credentialSchemes

theorem pattern_eq_of_isPrefixOf : ∀ p ∈ patterns, ∀ q ∈ patterns, p.isPrefixOf q → p = q := by
  decide +kernel

theorem pattern_unique {p q : Text} (hp : p ∈ patterns) (hq : q ∈ patterns) (h : p <+: text)
    (h' : q <+: text) : p = q := by
  rcases List.prefix_or_prefix_of_prefix h h' with hpq | hqp
  · exact pattern_eq_of_isPrefixOf p hp q hq (List.isPrefixOf_iff_prefix.mpr hpq)
  · exact (pattern_eq_of_isPrefixOf q hq p hp (List.isPrefixOf_iff_prefix.mpr hqp)).symm

theorem mem_patterns_of_marker {marker : Text} (h : marker ∈ markers) : marker ∈ patterns :=
  List.mem_append_left _ h

theorem mem_patterns_of_scheme {scheme : Text} (h : scheme ∈ credentialSchemes) :
    scheme ∈ patterns := List.mem_append_right _ h

theorem find_eq_some_iff {list : List Text} (hlist : ∀ p ∈ list, p ∈ patterns) {p lowered : Text} :
    list.find? (·.isPrefixOf lowered) = some p ↔ p ∈ list ∧ p <+: lowered := by
  constructor
  · intro h
    have hprefix := List.find?_some (p := fun p : Text => p.isPrefixOf lowered) h
    exact ⟨List.mem_of_find?_eq_some h, List.isPrefixOf_iff_prefix.mp hprefix⟩
  · rintro ⟨hp, hprefix⟩
    have hsome : (list.find? (·.isPrefixOf lowered)).isSome :=
      List.find?_isSome.mpr ⟨p, hp, List.isPrefixOf_iff_prefix.mpr hprefix⟩
    obtain ⟨q, hq⟩ := Option.isSome_iff_exists.mp hsome
    have hqprefix := List.find?_some (p := fun q : Text => q.isPrefixOf lowered) hq
    rw [hq, pattern_unique (hlist q (List.mem_of_find?_eq_some hq)) (hlist p hp)
      (List.isPrefixOf_iff_prefix.mp hqprefix) hprefix]

theorem markerOf_eq_some_iff {marker : Text} :
    markerOf text = some marker ↔ marker ∈ markers ∧ marker <+: toAsciiLowercase text :=
  find_eq_some_iff fun _ => mem_patterns_of_marker

/-! ### Letters -/

theorem lowercase_append (a b : Text) :
    toAsciiLowercase (a ++ b) = toAsciiLowercase a ++ toAsciiLowercase b := List.map_append

theorem lowercase_cons (c : Char) (text : Text) :
    toAsciiLowercase (c :: text) = asciiLowercase c :: toAsciiLowercase text := rfl

/-- A letter neither ends a token nor is given back. -/
theorem letter_kept (h : 65 ≤ c.toNat ∧ c.toNat ≤ 90 ∨ 97 ≤ c.toNat ∧ c.toNat ≤ 122) :
    isStop c = false ∧ isClosing c = false := by
  have hall : ∀ n < 128, 65 ≤ n ∧ n ≤ 90 ∨ 97 ≤ n ∧ n ≤ 122 →
      isStop (Char.ofNat n) = false ∧ isClosing (Char.ofNat n) = false := by
    decide +kernel
  have hkept := hall c.toNat (by omega) h
  rwa [Char.ofNat_toNat] at hkept

theorem lowercase_kept (c : Char) :
    isStop (asciiLowercase c) = isStop c ∧ isClosing (asciiLowercase c) = isClosing c := by
  by_cases h : 65 ≤ c.toNat ∧ c.toNat ≤ 90
  · have hnat := toNat_asciiLowercase c
    rw [if_pos h] at hnat
    have hlow := letter_kept (c := asciiLowercase c) (.inr (by omega))
    have hcapital := letter_kept (.inl h)
    exact ⟨hlow.1.trans hcapital.1.symm, hlow.2.trans hcapital.2.symm⟩
  · have hsame : asciiLowercase c = c := by
      refine Char.toNat_inj.mp ?_
      rw [toNat_asciiLowercase, if_neg h]
    rw [hsame]
    exact ⟨rfl, rfl⟩

/-- A text that begins like a pattern begins with a letter. -/
theorem head_of_pattern {p : Text} (hp : p ∈ patterns) (h : p <+: toAsciiLowercase (c :: text)) :
    isStop c = false ∧ isClosing c = false := by
  have hhead : ∀ p ∈ patterns, (p.head?.any fun d => !isStop d && !isClosing d) = true := by
    decide +kernel
  have hp := hhead p hp
  obtain ⟨rest, hrest⟩ := h
  cases p with
  | nil => cases hp
  | cons d p =>
    rw [lowercase_cons] at hrest
    obtain ⟨rfl, -⟩ := List.cons.inj hrest
    simp only [List.head?_cons, Option.any_some, Bool.and_eq_true, Bool.not_eq_true'] at hp
    rwa [(lowercase_kept c).1, (lowercase_kept c).2] at hp

theorem exists_of_prefix_lowercase {p : Text} (h : p <+: toAsciiLowercase text) :
    ∃ front rest, text = front ++ rest ∧ toAsciiLowercase front = p := by
  refine ⟨text.take p.length, text.drop p.length, (List.take_append_drop ..).symm, ?_⟩
  have htake := (List.prefix_iff_eq_take.mp h).symm
  rwa [toAsciiLowercase_eq_map, ← List.map_take] at htake

/-- A token holds the marker it begins with. -/
theorem marker_token {marker : Text} (h : markerOf text = some marker) :
    markerOf (token text) = some marker := by
  obtain ⟨hmem, hprefix⟩ := markerOf_eq_some_iff.mp h
  obtain ⟨front, rest, htext, hfront⟩ := exists_of_prefix_lowercase hprefix
  have hmarker : ∀ m ∈ markers, (m.all (!isStop ·) && m.getLast?.any (!isClosing ·)) = true := by
    decide +kernel
  have hmarker := hmarker marker hmem
  rw [Bool.and_eq_true, ← hfront] at hmarker
  have hstop : NoStop front := by
    intro c hc
    have hlow := List.all_eq_true.mp hmarker.1 (asciiLowercase c) (List.mem_map_of_mem hc)
    rw [(lowercase_kept c).1] at hlow
    simpa using hlow
  have hrun : run text = front ++ run rest := by rw [htext, run_append_of_noStop hstop]
  obtain ⟨back, hback, hall⟩ := token_split text
  have htoken : ∃ after, token text = front ++ after := by
    rcases List.append_eq_append_iff.mp (hrun.symm.trans hback) with ⟨after, h, -⟩ | ⟨after, h, h'⟩
    · exact ⟨after, h⟩
    · rcases List.eq_nil_or_concat after with rfl | ⟨after, c, rfl⟩
      · exact ⟨[], by rw [List.append_nil] at h ⊢; exact h.symm⟩
      · have hc := hall c (by rw [h']; simp)
        have hlast := hmarker.2
        rw [h, List.concat_eq_append, ← List.append_assoc, lowercase_append] at hlast
        simp [toAsciiLowercase_eq_map, (lowercase_kept c).2, hc] at hlast
  obtain ⟨after, hafter⟩ := htoken
  refine markerOf_eq_some_iff.mpr ⟨hmem, ?_⟩
  rw [hafter, lowercase_append, hfront]
  exact List.prefix_append ..

theorem ne_nil_of_marker {marker : Text} (h : markerOf text = some marker) : text ≠ [] := by
  rintro rfl
  have hnone : markerOf [] = none := by decide
  rw [hnone] at h
  cases h

theorem token_ne_nil {marker : Text} (h : markerOf text = some marker) : token text ≠ [] :=
  ne_nil_of_marker (marker_token h)

end Redact

end RDownloader
