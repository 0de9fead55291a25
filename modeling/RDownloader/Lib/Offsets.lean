import Mathlib.Data.List.Basic

/-!
# Reading a list by offsets

A reader that goes through a list by offsets sees, at each of them, what is left behind it.
`Stands xs start piece` says that `piece` is the next thing there; pieces that stand one behind the
other are one longer piece (`stands_append`).
-/

namespace Offsets

variable {α : Type} {xs piece more : List α} {start : Nat}

/-- `slice::get` of a range. -/
def range (xs : List α) (first last : Nat) : Option (List α) :=
  if first ≤ last ∧ last ≤ xs.length then some ((xs.drop first).take (last - first)) else none

theorem le_of_range {first last : Nat} (h : piece ∈ range xs first last) :
    first ≤ last ∧ last ≤ xs.length := by
  by_contra hout
  rw [range, if_neg hout] at h
  cases h

/-- `piece` stands in `xs` at the offset `start`. -/
def Stands (xs : List α) (start : Nat) (piece : List α) : Prop := piece <+: xs.drop start

theorem stands_append :
    Stands xs start (piece ++ more) ↔
      Stands xs start piece ∧ Stands xs (start + piece.length) more := by
  constructor
  · rintro ⟨rest, hrest⟩
    rw [List.append_assoc] at hrest
    refine ⟨⟨more ++ rest, hrest⟩, rest, ?_⟩
    rw [← List.drop_drop, ← hrest, List.drop_left]
  · rintro ⟨⟨rest, hrest⟩, last, hlast⟩
    refine ⟨last, ?_⟩
    rw [← List.drop_drop, ← hrest, List.drop_left] at hlast
    rw [List.append_assoc, hlast, hrest]

theorem stands_cons {x : α} :
    Stands xs start (x :: piece) ↔ xs[start]? = some x ∧ Stands xs (start + 1) piece := by
  have hhead : Stands xs start [x] ↔ xs[start]? = some x := by
    rw [← List.head?_drop]
    constructor
    · rintro ⟨rest, hrest⟩
      rw [← hrest]
      rfl
    · intro hx
      cases hdrop : xs.drop start with
      | nil => simp [hdrop] at hx
      | cons y rest =>
        rw [hdrop] at hx
        cases hx
        exact ⟨rest, hdrop.symm⟩
  rw [← hhead]
  exact @stands_append _ _ [x] piece start

theorem Stands.lt_length (h : Stands xs start piece) (hne : piece ≠ []) : start < xs.length := by
  have hle := List.IsPrefix.length_le h
  have hpos := List.length_pos_iff.mpr hne
  rw [List.length_drop] at hle
  omega

theorem Stands.length_le (h : Stands xs start piece) (hstart : start ≤ xs.length) :
    start + piece.length ≤ xs.length := by
  have hle := List.IsPrefix.length_le h
  rw [List.length_drop] at hle
  omega

theorem Stands.range (h : Stands xs start piece) (hstart : start ≤ xs.length) :
    Offsets.range xs start (start + piece.length) = some piece := by
  rw [Offsets.range, if_pos ⟨Nat.le_add_right _ _, h.length_le hstart⟩, Nat.add_sub_cancel_left]
  exact congrArg some (List.prefix_iff_eq_take.mp h).symm

theorem stands_front (xs more : List α) : Stands (xs ++ more) 0 xs := ⟨more, rfl⟩

/-- The first place of what stands behind a piece without it. -/
theorem Stands.idxOf? [BEq α] [LawfulBEq α] {x : α} (h : Stands xs start (piece ++ [x]))
    (hx : x ∉ piece) : (xs.drop start).idxOf? x = some piece.length := by
  obtain ⟨rest, hrest⟩ := h
  rw [← hrest, List.append_assoc, List.idxOf?_eq_some_iff]
  refine ⟨by simp, by simp, fun j hj => ?_⟩
  rw [List.getElem_append_left hj]
  exact fun heq => hx (heq ▸ List.getElem_mem hj)

theorem lt_of_idxOf? [BEq α] [LawfulBEq α] {x : α} {place : Nat}
    (h : (xs.drop start).idxOf? x = some place) : start + place < xs.length := by
  obtain ⟨hlt, -, -⟩ := List.idxOf?_eq_some_iff.mp h
  rw [List.length_drop] at hlt
  omega

end Offsets

/-!
## Places in a concatenation

Pieces that are read as one list start where the ones before them end. Starts repeat where a piece
is empty, and the last start that is not past a place belongs to the piece the place is in
(`exists_piece`).
-/

namespace Concatenation

variable {α : Type*} {base place : Nat}

/-- Where each piece starts, the first at `base`. -/
def starts : Nat → List (List α) → List Nat
  | _, [] => []
  | base, piece :: pieces => base :: starts (base + piece.length) pieces

theorem getElem?_starts (base : Nat) (front : List (List α)) (piece : List α)
    (back : List (List α)) :
    (starts base (front ++ piece :: back))[front.length]? = some (base + front.flatten.length) := by
  induction front generalizing base with
  | nil => rfl
  | cons first front ih =>
    rw [List.cons_append, starts, List.length_cons, List.getElem?_cons_succ, ih,
      List.flatten_cons, List.length_append, Nat.add_assoc]

/-- The piece a place is in is the last of those that start at or before it. -/
theorem exists_piece {pieces : List (List α)} (hbase : base ≤ place)
    (hplace : place < base + pieces.flatten.length) :
    ∃ front piece back, pieces = front ++ piece :: back ∧
      ((starts base pieces).takeWhile (· ≤ place)).length = front.length + 1 ∧
      base + front.flatten.length ≤ place ∧
      place < base + front.flatten.length + piece.length := by
  induction pieces generalizing base with
  | nil => exact absurd hplace (Nat.not_lt_of_le hbase)
  | cons first pieces ih =>
    rw [starts, List.takeWhile_cons_of_pos (by simpa using hbase), List.length_cons]
    by_cases hfirst : place < base + first.length
    · refine ⟨[], first, pieces, rfl, ?_, hbase, hfirst⟩
      have hnone : (starts (base + first.length) pieces).takeWhile (· ≤ place) = [] := by
        cases pieces with
        | nil => rfl
        | cons second pieces =>
          rw [starts, List.takeWhile_cons_of_neg]
          simpa using hfirst
      rw [hnone]
      rfl
    · rw [List.flatten_cons, List.length_append] at hplace
      obtain ⟨front, piece, back, hpieces, hlength, hstart, hend⟩ :=
        ih (Nat.le_of_not_lt hfirst) (by omega)
      refine ⟨first :: front, piece, back, by rw [hpieces, List.cons_append], by
        rw [hlength, List.length_cons], ?_, ?_⟩
      · rw [List.flatten_cons, List.length_append]
        omega
      · rw [List.flatten_cons, List.length_append]
        omega

/-- What follows a place in a piece is there in the concatenation. -/
theorem take_drop (front : List (List α)) (piece : List α) (back : List (List α)) {n : Nat}
    (hn : place + n ≤ piece.length) :
    ((front ++ piece :: back).flatten.drop (front.flatten.length + place)).take n =
      (piece.drop place).take n := by
  rw [List.flatten_append, List.flatten_cons, List.drop_append, List.drop_eq_nil_of_le (by omega),
    List.nil_append, Nat.add_sub_cancel_left, List.drop_append_of_le_length (by omega),
    List.take_append_of_le_length]
  rw [List.length_drop]
  omega

end Concatenation
