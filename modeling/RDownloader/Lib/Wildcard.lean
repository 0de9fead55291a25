import Mathlib.Algebra.GroupWithZero.Nat
import Mathlib.Data.List.Forall2

/-!
# Wildcard patterns

Patterns with a star for any run and a mark for any one symbol, over any symbols, and the search
that only ever takes back the last star.
-/

namespace RDownloader

namespace Wildcard

universe u v

/-- A symbol of a pattern. -/
inductive Token (α : Type u)
  | star
  | one
  | letter (a : α)

/-- A pattern matches a run of symbols, where `same` says which symbols a letter stands for. -/
inductive Matches {α : Type u} {β : Type v} (same : α → β → Prop) : List (Token α) → List β → Prop
  | nil : Matches same [] []
  | starSkip {pattern subject} : Matches same pattern subject →
      Matches same (.star :: pattern) subject
  | starTake {pattern b subject} : Matches same (.star :: pattern) subject →
      Matches same (.star :: pattern) (b :: subject)
  | one {pattern b subject} : Matches same pattern subject →
      Matches same (.one :: pattern) (b :: subject)
  | letter {a pattern b subject} : same a b → Matches same pattern subject →
      Matches same (.letter a :: pattern) (b :: subject)

variable {α : Type u} {β : Type v} {same : α → β → Prop} {pattern : List (Token α)}
  {subject : List β} {a : α} {b : β}

theorem not_matches_one_nil : ¬ Matches same (.one :: pattern) [] := nofun

theorem not_matches_letter_nil : ¬ Matches same (.letter a :: pattern) [] := nofun

theorem not_matches_nil_cons : ¬ Matches same [] (b :: subject) := nofun

theorem matches_one_iff :
    Matches same (.one :: pattern) (b :: subject) ↔ Matches same pattern subject :=
  ⟨fun | .one h => h, .one⟩

theorem matches_letter_iff : Matches same (.letter a :: pattern) (b :: subject) ↔
    same a b ∧ Matches same pattern subject :=
  ⟨fun | .letter hsame h => ⟨hsame, h⟩, fun h => .letter h.1 h.2⟩

/-- A star matches when the rest of the pattern matches what it leaves. -/
theorem matches_star_iff : Matches same (.star :: pattern) subject ↔
    ∃ rest, rest <:+ subject ∧ Matches same pattern rest := by
  constructor
  · generalize hstar : Token.star :: pattern = starred
    intro h
    induction h with
    | nil => cases hstar
    | starSkip h _ =>
      cases hstar
      exact ⟨_, List.suffix_rfl, h⟩
    | starTake _ ih =>
      obtain ⟨rest, hsuffix, h⟩ := ih hstar
      exact ⟨rest, hsuffix.trans (List.suffix_cons ..), h⟩
    | one => cases hstar
    | letter => cases hstar
  · rintro ⟨rest, ⟨taken, rfl⟩, h⟩
    induction taken with
    | nil => exact .starSkip h
    | cons b taken ih => exact .starTake ih

/-- A star that matches part of a text matches the whole of it. -/
theorem Matches.of_suffix {rest : List β} (h : Matches same (.star :: pattern) rest)
    (hsuffix : rest <:+ subject) : Matches same (.star :: pattern) subject := by
  obtain ⟨inner, hinner, hmatch⟩ := matches_star_iff.mp h
  exact matches_star_iff.mpr ⟨inner, hinner.trans hsuffix, hmatch⟩

/-- A star takes nothing, or one symbol more. -/
theorem matches_star_tail_iff : Matches same (.star :: pattern) subject ↔
    Matches same pattern subject ∨ Matches same (.star :: pattern) subject.tail := by
  constructor
  · intro h
    cases h with
    | starSkip h => exact .inl h
    | starTake h => exact .inr h
  · rintro (h | h)
    · exact .starSkip h
    · exact h.of_suffix (List.tail_suffix _)

theorem matches_nil_iff : Matches same pattern [] ↔ ∀ token ∈ pattern, token = .star := by
  induction pattern with
  | nil => exact ⟨fun _ => nofun, fun _ => .nil⟩
  | cons token pattern ih =>
    rw [List.forall_mem_cons]
    cases token with
    | star =>
      rw [matches_star_iff, ← ih]
      constructor
      · rintro ⟨rest, hsuffix, h⟩
        exact ⟨rfl, List.suffix_nil.mp hsuffix ▸ h⟩
      · exact fun h => ⟨[], List.suffix_rfl, h.2⟩
    | one => exact ⟨fun h => (not_matches_one_nil h).elim, fun h => nomatch h.1⟩
    | letter => exact ⟨fun h => (not_matches_letter_nil h).elim, fun h => nomatch h.1⟩

/-- A part of a pattern without stars takes as many symbols as it has. -/
theorem Matches.split {front : List (Token α)} (hfront : ∀ token ∈ front, token ≠ .star)
    (h : Matches same (front ++ pattern) subject) :
    front.length ≤ subject.length ∧ Matches same pattern (subject.drop front.length) := by
  induction front generalizing subject with
  | nil => exact ⟨Nat.zero_le _, h⟩
  | cons token front ih =>
    obtain ⟨htoken, hrest⟩ := List.forall_mem_cons.mp hfront
    cases h with
    | starSkip => exact absurd rfl htoken
    | starTake => exact absurd rfl htoken
    | one h => exact ⟨Nat.succ_le_succ (ih hrest h).1, (ih hrest h).2⟩
    | letter _ h => exact ⟨Nat.succ_le_succ (ih hrest h).1, (ih hrest h).2⟩

/-- A later star makes up for whatever an earlier one would take: what stands between them takes
one symbol each, wherever it begins. -/
theorem Matches.exchange {front : List (Token α)} (hfront : ∀ token ∈ front, token ≠ .star)
    {before : List β} (hlength : before.length ≤ front.length)
    (h : Matches same (.star :: (front ++ .star :: pattern)) (before ++ subject)) :
    Matches same (.star :: pattern) subject := by
  obtain ⟨rest, ⟨taken, htaken⟩, hrest⟩ := matches_star_iff.mp h
  obtain ⟨hle, hstar⟩ := hrest.split hfront
  refine hstar.of_suffix ?_
  have hdrop : rest.drop front.length =
      subject.drop (taken.length + front.length - before.length) := by
    have hsame := congrArg (List.drop (taken.length + front.length)) htaken
    rw [List.drop_append, List.drop_append, List.drop_of_length_le (Nat.le_add_right ..),
      List.drop_of_length_le (Nat.le_trans hlength (Nat.le_add_left ..)),
      Nat.add_sub_cancel_left] at hsame
    exact hsame
  exact hdrop ▸ List.drop_suffix _ _

/-- Without room for what stands after a star there is no match. -/
theorem Matches.length_le {front : List (Token α)} (hfront : ∀ token ∈ front, token ≠ .star)
    (h : Matches same (.star :: (front ++ pattern)) subject) : front.length ≤ subject.length := by
  obtain ⟨rest, hsuffix, hrest⟩ := matches_star_iff.mp h
  exact Nat.le_trans (hrest.split hfront).1 hsuffix.length_le

/-! ## Comparing patterns -/

/-- What each symbol of a pattern stands for at its place. -/
def Fits (same : α → β → Prop) : Token α → β → Prop
  | .letter a, b => same a b
  | _, _ => True

/-- A pattern matches what fits it place by place. -/
theorem Matches.of_fits (h : List.Forall₂ (Fits same) pattern subject) :
    Matches same pattern subject := by
  induction h with
  | nil => exact .nil
  | @cons token b pattern subject hfits _ ih =>
    cases token with
    | star => exact .starTake (.starSkip ih)
    | one => exact .one ih
    | letter a => exact .letter hfits ih

/-- What is counted of a token. -/
def weight (f : α → Nat) : Token α → Nat
  | .letter a => f a
  | _ => 0

/-- Each letter needs a symbol of its own. -/
theorem Matches.sum_le {f : α → Nat} {g : β → Nat} (hle : ∀ a b, same a b → f a ≤ g b)
    (h : Matches same pattern subject) :
    (pattern.map (weight f)).sum ≤ (subject.map g).sum := by
  induction h with
  | nil => exact Nat.le_refl _
  | starSkip _ ih =>
    rw [List.map_cons, List.sum_cons]
    exact (Nat.zero_add _).symm ▸ ih
  | starTake _ ih =>
    rw [List.map_cons (l := _), List.sum_cons] at ih ⊢
    rw [List.map_cons, List.sum_cons]
    omega
  | one _ ih =>
    rw [List.map_cons, List.map_cons, List.sum_cons, List.sum_cons]
    exact Nat.add_le_add (Nat.zero_le _) ih
  | letter hsame _ ih =>
    rw [List.map_cons, List.map_cons, List.sum_cons, List.sum_cons]
    exact Nat.add_le_add (hle _ _ hsame) ih

def Token.map {γ : Type*} (f : α → γ) : Token α → Token γ
  | .star => .star
  | .one => .one
  | .letter a => .letter (f a)

/-- Only the letters of the pattern and the symbols of the subject are compared. -/
theorem Matches.mono {same' : α → β → Prop} (h : Matches same pattern subject)
    (himp : ∀ a, .letter a ∈ pattern → ∀ b ∈ subject, same a b → same' a b) :
    Matches same' pattern subject := by
  induction h with
  | nil => exact .nil
  | starSkip _ ih => exact .starSkip (ih fun a ha => himp a (List.mem_cons_of_mem _ ha))
  | starTake _ ih =>
    exact .starTake (ih fun a ha b hb => himp a ha b (List.mem_cons_of_mem _ hb))
  | one _ ih =>
    exact .one (ih fun a ha b hb =>
      himp a (List.mem_cons_of_mem _ ha) b (List.mem_cons_of_mem _ hb))
  | letter hsame _ ih =>
    exact .letter (himp _ List.mem_cons_self _ List.mem_cons_self hsame) (ih fun a ha b hb =>
      himp a (List.mem_cons_of_mem _ ha) b (List.mem_cons_of_mem _ hb))

section

variable {γ δ : Type*} {same' : γ → δ → Prop} {f : α → γ} {g : β → δ}

theorem Matches.map (h : Matches (fun a b => same' (f a) (g b)) pattern subject) :
    Matches same' (pattern.map (Token.map f)) (subject.map g) := by
  induction h with
  | nil => exact .nil
  | starSkip _ ih => exact .starSkip ih
  | starTake _ ih => exact .starTake ih
  | one _ ih => exact .one ih
  | letter hsame _ ih => exact .letter hsame ih

theorem Matches.of_map (h : Matches same' (pattern.map (Token.map f)) (subject.map g)) :
    Matches (fun a b => same' (f a) (g b)) pattern subject := by
  generalize hpattern : pattern.map (Token.map f) = mapped at h
  generalize hsubject : subject.map g = target at h
  induction h generalizing pattern subject with
  | nil =>
    rw [List.map_eq_nil_iff.mp hpattern, List.map_eq_nil_iff.mp hsubject]
    exact .nil
  | starSkip _ ih =>
    obtain ⟨token, pattern, rfl, htoken, rfl⟩ := List.map_eq_cons_iff.mp hpattern
    cases token <;> cases htoken
    exact .starSkip (ih rfl hsubject)
  | starTake _ ih =>
    obtain ⟨b, subject, rfl, rfl, rfl⟩ := List.map_eq_cons_iff.mp hsubject
    obtain ⟨token, rest, rfl, htoken, rfl⟩ := List.map_eq_cons_iff.mp hpattern
    cases token <;> cases htoken
    exact .starTake (ih rfl rfl)
  | one _ ih =>
    obtain ⟨b, subject, rfl, rfl, rfl⟩ := List.map_eq_cons_iff.mp hsubject
    obtain ⟨token, rest, rfl, htoken, rfl⟩ := List.map_eq_cons_iff.mp hpattern
    cases token <;> cases htoken
    exact .one (ih rfl rfl)
  | letter hsame _ ih =>
    obtain ⟨b, subject, rfl, rfl, rfl⟩ := List.map_eq_cons_iff.mp hsubject
    obtain ⟨token, rest, rfl, htoken, rfl⟩ := List.map_eq_cons_iff.mp hpattern
    cases token <;> cases htoken
    exact .letter hsame (ih rfl rfl)

theorem matches_map_iff : Matches same' (pattern.map (Token.map f)) (subject.map g) ↔
    Matches (fun a b => same' (f a) (g b)) pattern subject :=
  ⟨.of_map, .map⟩

end

end Wildcard
end RDownloader
