import RDownloader.Lib.Wildcard
import RDownloader.Torrent.Glob

/-!
# What exclusion patterns mean

The search inside a segment takes back its last star only, and that is enough. What is documented
holds of the texts in lower case, and so of all texts whose letters go to lower case one by one.
-/

namespace RDownloader

namespace Glob

open Wildcard

universe u

variable {γ : Type u}

def token (c : Char) : Token Char :=
  if c = '*' then .star else if c = '?' then .one else .letter c

def segmentToken (segment : Text) : Token Text :=
  if segment = "**".toList then .star else .letter segment

/-- Inside one segment: letters are the same that have the same `f`. -/
def SegmentMatches (f : Char → γ) (pattern subject : Text) : Prop :=
  Matches (fun a b => f a = f b) (pattern.map token) subject

/-- What is documented, with letters told apart by `f`. -/
def Documented (f : Char → γ) (pattern path : Text) : Prop :=
  Matches (SegmentMatches f) ((pattern.splitOn '/').map segmentToken)
    (if '/' ∈ pattern then path.splitOn '/' else [fileName path])

/-! ## Inside a segment -/

section

variable {pattern subject : Text} {search : Search}

/-- Since the last star, both sides have gone on in step, past no other star. -/
def Aligned (pattern subject : Text) (search : Search) : Prop :=
  ∀ index taken, search.star = some (index, taken) → ∃ front before : Text,
    pattern.drop (index + 1) = front ++ pattern.drop search.patternIndex ∧
      subject.drop taken = before ++ subject.drop search.subjectIndex ∧
      front.length = before.length ∧ '*' ∉ front

/-- Letters that are the same letter. -/
def Same (a b : Char) : Prop := id a = id b

/-- Some later start after the last star matches. -/
def Later (pattern subject : Text) (search : Search) : Prop :=
  ∃ index taken, search.star = some (index, taken) ∧
    Matches Same (.star :: (pattern.drop (index + 1)).map token) (subject.drop (taken + 1))

/-- What is left matches as it stands, or after a later start. -/
def Open (pattern subject : Text) (search : Search) : Prop :=
  Matches Same ((pattern.drop search.patternIndex).map token) (subject.drop search.subjectIndex) ∨
    Later pattern subject search

theorem token_star : token '*' = .star := rfl

theorem token_ne_star {c : Char} (h : c ≠ '*') : token c ≠ .star := by
  rw [token, if_neg h]
  split <;> nofun

theorem tokens_ne_star {text : Text} (h : '*' ∉ text) : ∀ t ∈ text.map token, t ≠ .star :=
  List.forall_mem_map.mpr fun _ hc => token_ne_star fun heq => h (heq ▸ hc)

/-- A character takes one of the other side. -/
theorem matches_token_iff {c d : Char} {pattern subject : Text} (hc : c ≠ '*') :
    Matches Same (token c :: pattern.map token) (d :: subject) ↔
      (c = '?' ∨ c = d) ∧ Matches Same (pattern.map token) subject := by
  rw [token, if_neg hc]
  split
  next hmark => rw [matches_one_iff, or_iff_left_of_imp (fun _ => hmark), and_iff_right hmark]
  next hmark => rw [matches_letter_iff, or_iff_right hmark, Same, id, id]

theorem not_matches_token_nil {c : Char} {pattern : Text} (hc : c ≠ '*') :
    ¬ Matches Same (token c :: pattern.map token) [] := fun h =>
  token_ne_star hc (matches_nil_iff.mp h _ List.mem_cons_self)

theorem drop_of_get {c : Char} {text : Text} {index : Nat} (h : text[index]? = some c) :
    text.drop index = c :: text.drop (index + 1) := by
  obtain ⟨hlt, rfl⟩ := List.getElem?_eq_some_iff.mp h
  exact List.drop_eq_getElem_cons hlt

theorem Later.of_aligned (haligned : Aligned pattern subject search)
    (h : Later pattern subject search) : ∃ front before : Text, front.length = before.length ∧
      '*' ∉ front ∧ Matches Same
        (.star :: (front.map token ++ (pattern.drop search.patternIndex).map token))
        (before ++ subject.drop search.subjectIndex).tail := by
  obtain ⟨index, taken, hstar, hmatch⟩ := h
  obtain ⟨front, before, hpattern, hsubject, hlength, hfront⟩ := haligned index taken hstar
  refine ⟨front, before, hlength, hfront, ?_⟩
  rw [hpattern, List.map_append] at hmatch
  rw [← hsubject, List.tail_drop]
  exact hmatch

/-- Where the subject is read to its end, the rest of the pattern decides. -/
theorem open_iff_of_end (haligned : Aligned pattern subject search)
    (hend : subject.length ≤ search.subjectIndex) :
    Open pattern subject search ↔
      (pattern.drop search.patternIndex).all (· = '*') = true := by
  have hnil := List.drop_of_length_le hend
  have hall : (∀ t ∈ (pattern.drop search.patternIndex).map token, t = .star) ↔
      (pattern.drop search.patternIndex).all (· = '*') = true := by
    rw [List.forall_mem_map, List.all_eq_true]
    refine forall_congr' fun c => forall_congr' fun _ => ?_
    rw [decide_eq_true_eq]
    exact ⟨fun h => Decidable.of_not_not fun hne => token_ne_star hne h, fun h => h ▸ rfl⟩
  rw [← hall, Open, hnil, matches_nil_iff]
  refine or_iff_left_of_imp fun hlater => ?_
  obtain ⟨front, before, hlength, hfront, hmatch⟩ := hlater.of_aligned haligned
  rw [hnil, List.append_nil] at hmatch
  have hle := hmatch.length_le (tokens_ne_star hfront)
  rw [List.length_map, List.length_tail, hlength] at hle
  have hbefore : before = [] := List.length_eq_zero_iff.mp (by omega)
  rw [hbefore] at hmatch
  exact fun t ht => matches_nil_iff.mp hmatch t
    (List.mem_cons_of_mem _ (List.mem_append_right _ ht))

theorem Aligned.passStar : Aligned pattern subject search.passStar := by
  rintro _ _ ⟨⟩
  exact ⟨[], [], rfl, rfl, rfl, List.not_mem_nil⟩

theorem Aligned.advance {c d : Char} (haligned : Aligned pattern subject search)
    (hc : pattern[search.patternIndex]? = some c) (hstar : c ≠ '*')
    (hd : subject[search.subjectIndex]? = some d) :
    Aligned pattern subject search.advance := by
  intro index taken h
  obtain ⟨front, before, hpattern, hsubject, hlength, hfront⟩ := haligned index taken h
  refine ⟨front ++ [c], before ++ [d], ?_, ?_, by simp [hlength], ?_⟩
  · rw [hpattern, drop_of_get hc, List.append_assoc]
    rfl
  · rw [hsubject, drop_of_get hd, List.append_assoc]
    rfl
  · simp [hfront, Ne.symm hstar]

theorem Aligned.takeBack {next : Search} (h : search.takeBack = some next) :
    Aligned pattern subject next := by
  obtain ⟨⟨index, taken⟩, -, rfl⟩ := Option.map_eq_some_iff.mp h
  rintro _ _ ⟨⟩
  exact ⟨[], [], rfl, rfl, rfl, List.not_mem_nil⟩

/-- Right after a star, a match is one from there on. -/
theorem open_after_star_iff {index taken : Nat} (hstar : search.star = some (index, taken))
    (hpattern : search.patternIndex = index + 1) (hsubject : search.subjectIndex = taken) :
    Open pattern subject search ↔
      Matches Same (.star :: (pattern.drop (index + 1)).map token) (subject.drop taken) := by
  have hlater : Later pattern subject search ↔
      Matches Same (.star :: (pattern.drop (index + 1)).map token) (subject.drop (taken + 1)) := by
    constructor
    · rintro ⟨_, _, heq, h⟩
      cases hstar.symm.trans heq
      exact h
    · exact fun h => ⟨index, taken, hstar, h⟩
  rw [Open, hlater, hpattern, hsubject, ← List.tail_drop (l := subject)]
  exact matches_star_tail_iff.symm

/-- The last star may be forgotten for a new one. -/
theorem open_passStar_iff (haligned : Aligned pattern subject search)
    (hstar : pattern[search.patternIndex]? = some '*') :
    Open pattern subject search.passStar ↔ Open pattern subject search := by
  have hpattern := drop_of_get hstar
  rw [open_after_star_iff rfl rfl rfl, Open, hpattern, List.map_cons, token_star]
  refine (or_iff_left_of_imp fun h => ?_).symm
  obtain ⟨front, before, hlength, hfront, hmatch⟩ := h.of_aligned haligned
  rw [hpattern, List.map_cons, token_star] at hmatch
  have hle : before.length ≤ (front.map token).length := by
    simp [hlength]
  exact Matches.exchange (tokens_ne_star hfront) hle (hmatch.of_suffix (List.tail_suffix _))

theorem open_advance_iff {c d : Char} (hc : pattern[search.patternIndex]? = some c)
    (hstar : c ≠ '*') (hd : subject[search.subjectIndex]? = some d) (hsame : c = '?' ∨ c = d) :
    Open pattern subject search.advance ↔ Open pattern subject search := by
  have hrest : Matches Same ((pattern.drop search.patternIndex).map token)
      (subject.drop search.subjectIndex) ↔
      Matches Same ((pattern.drop (search.patternIndex + 1)).map token)
        (subject.drop (search.subjectIndex + 1)) := by
    rw [drop_of_get hc, drop_of_get hd, List.map_cons, matches_token_iff hstar,
      and_iff_right hsame]
  rw [Open, Open, hrest]
  rfl

/-- Where the two sides differ, only a later start can match. -/
theorem open_takeBack_iff {d : Char} (hd : subject[search.subjectIndex]? = some d)
    (hdiffer : ∀ c, pattern[search.patternIndex]? = some c → c ≠ '*' ∧ c ≠ '?' ∧ c ≠ d) :
    Open pattern subject search ↔ ∃ next, search.takeBack = some next ∧
      Open pattern subject next := by
  have hnot : ¬ Matches Same ((pattern.drop search.patternIndex).map token)
      (subject.drop search.subjectIndex) := by
    rw [drop_of_get hd]
    cases hc : pattern[search.patternIndex]? with
    | none =>
      rw [List.drop_of_length_le (List.getElem?_eq_none_iff.mp hc)]
      exact not_matches_nil_cons
    | some c =>
      obtain ⟨hstar, hmark, hne⟩ := hdiffer c hc
      rw [drop_of_get hc, List.map_cons, matches_token_iff hstar]
      exact fun h => h.1.elim hmark hne
  rw [Open, or_iff_right hnot]
  constructor
  · rintro ⟨index, taken, hstar, h⟩
    exact ⟨_, congrArg (Option.map _) hstar, (open_after_star_iff rfl rfl rfl).mpr h⟩
  · rintro ⟨next, htake, h⟩
    obtain ⟨⟨index, taken⟩, hstar, rfl⟩ := Option.map_eq_some_iff.mp htake
    exact ⟨index, taken, hstar, (open_after_star_iff rfl rfl rfl).mp h⟩

/-- One turn of the loop changes nothing about what can match. -/
theorem step_spec (haligned : Aligned pattern subject search)
    (hsubject : search.subjectIndex < subject.length) :
    (∀ next, search.step pattern subject = some next → Aligned pattern subject next ∧
      (Open pattern subject search ↔ Open pattern subject next)) ∧
    (search.step pattern subject = none → ¬ Open pattern subject search) := by
  obtain ⟨d, hd⟩ : ∃ d, subject[search.subjectIndex]? = some d :=
    ⟨_, List.getElem?_eq_getElem hsubject⟩
  have hturn := search.step_turn pattern subject
  generalize search.step pattern subject = result at hturn
  cases hturn with
  | star hstar =>
    refine ⟨?_, nofun⟩
    rintro _ ⟨⟩
    exact ⟨.passStar, (open_passStar_iff haligned hstar).symm⟩
  | both hc hstar hsame =>
    refine ⟨?_, nofun⟩
    rintro _ ⟨⟩
    have hsame := hsame.imp_right fun heq => (Option.some.inj (hd.symm.trans heq)).symm
    exact ⟨haligned.advance hc hstar hd, (open_advance_iff hc hstar hd hsame).symm⟩
  | back hdiffer htake =>
    rw [hd] at hdiffer
    have hiff := open_takeBack_iff hd fun c hc =>
      ⟨(hdiffer c hc).1, (hdiffer c hc).2.1, fun heq => (hdiffer c hc).2.2 (heq ▸ rfl)⟩
    rw [htake] at hiff
    constructor
    · rintro next rfl
      refine ⟨.takeBack htake, hiff.trans ⟨?_, fun h => ⟨next, rfl, h⟩⟩⟩
      rintro ⟨_, ⟨⟩, h⟩
      exact h
    · rintro rfl h
      obtain ⟨_, heq, -⟩ := hiff.mp h
      cases heq

theorem matchFrom_iff (haligned : Aligned pattern subject search) :
    matchFrom pattern subject search = true ↔ Open pattern subject search := by
  induction search using matchFrom.induct pattern subject with
  | case1 search hsubject next hstep ih =>
    obtain ⟨hnext, hiff⟩ := (step_spec haligned hsubject).1 next hstep
    rw [matchFrom, dif_pos hsubject, hiff, ← ih hnext]
    split
    next other heq =>
      cases hstep.symm.trans heq
      exact Iff.rfl
    next heq => cases hstep.symm.trans heq
  | case2 search hsubject hstep =>
    have hnot := (step_spec haligned hsubject).2 hstep
    rw [matchFrom, dif_pos hsubject, iff_false_right hnot]
    split
    next next heq => cases hstep.symm.trans heq
    next => exact Bool.false_ne_true
  | case3 search hend =>
    rw [matchFrom, dif_neg hend, open_iff_of_end haligned (Nat.le_of_not_lt hend)]

/-- Forgetting all but the last star loses no match. -/
theorem matchSegment_iff (pattern subject : Text) :
    matchSegment pattern subject = true ↔ SegmentMatches id pattern subject := by
  have haligned : Aligned pattern subject .start := nofun
  rw [matchSegment, matchFrom_iff haligned, Open]
  refine or_iff_left_of_imp ?_
  rintro ⟨_, _, heq, -⟩
  cases heq

end

theorem matchSegments_iff (pattern subject : List Text) :
    matchSegments pattern subject = true ↔
      Matches (SegmentMatches id) (pattern.map segmentToken) subject := by
  induction pattern generalizing subject with
  | nil =>
    rw [matchSegments, List.isEmpty_iff]
    constructor
    · rintro rfl
      exact .nil
    · rintro ⟨⟩
      rfl
  | cons head rest ih =>
    unfold matchSegments
    rw [List.map_cons, segmentToken]
    split
    next =>
      rw [matches_star_iff, List.any_eq_true]
      constructor
      · rintro ⟨skip, -, h⟩
        exact ⟨_, List.drop_suffix _ _, (ih _).mp h⟩
      · rintro ⟨left, ⟨taken, rfl⟩, h⟩
        refine ⟨taken.length, ?_, ?_⟩
        · rw [List.mem_range, List.length_append]
          omega
        · rw [List.drop_left]
          exact (ih _).mpr h
    next =>
      cases subject with
      | nil => exact ⟨nofun, fun h => (not_matches_letter_nil h).elim⟩
      | cons first remaining =>
        rw [matches_letter_iff, ← ih, ← matchSegment_iff, Bool.and_eq_true]

end Glob
end RDownloader
