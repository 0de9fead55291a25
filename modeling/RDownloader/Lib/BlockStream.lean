import Mathlib.Data.List.Basic

/-!
# Mixing a stream block by block

A running value takes in blocks of a fixed size. A stream that arrives in pieces carries the tail
that fills no block; carrying it gives the same value as the whole stream at once
(`blocks_append`).
-/

namespace BlockStream

variable {σ α : Type*} {size : Nat} {mix : σ → List α → σ}

/-- Mixes the first `n` blocks of `xs`; what is left of `xs` comes back beside the value. -/
def mixBlocks (size : Nat) (mix : σ → List α → σ) : Nat → σ → List α → σ × List α
  | 0, s, xs => (s, xs)
  | n + 1, s, xs => mixBlocks size mix n (mix s (xs.take size)) (xs.drop size)

/-- Mixes every full block of `xs`. -/
def blocks (size : Nat) (mix : σ → List α → σ) (s : σ) (xs : List α) : σ × List α :=
  mixBlocks size mix (xs.length / size) s xs

/-- The tail that fills no block is mixed as it is. -/
def finish (mix : σ → List α → σ) (s : σ × List α) : σ :=
  if s.2 = [] then s.1 else mix s.1 s.2

theorem blocks_short (s : σ) {xs : List α} (h : xs.length < size) :
    blocks size mix s xs = (s, xs) := by
  rw [blocks, Nat.div_eq_of_lt h, mixBlocks]

theorem blocks_step (s : σ) {xs : List α} (hpos : 0 < size) (h : size ≤ xs.length) :
    blocks size mix s xs = blocks size mix (mix s (xs.take size)) (xs.drop size) := by
  rw [blocks, blocks, List.length_drop, Nat.div_eq_sub_div hpos h, mixBlocks]

/-- Mixing a full block and nothing else. -/
theorem blocks_full (s : σ) {xs : List α} (hpos : 0 < size) (h : xs.length = size) :
    blocks size mix s xs = (mix s xs, []) := by
  rw [blocks_step s hpos (Nat.le_of_eq h.symm), List.take_of_length_le (Nat.le_of_eq h),
    List.drop_eq_nil_of_le (Nat.le_of_eq h), blocks_short _ (by simpa using hpos)]

theorem blocks_tail_length (mix : σ → List α → σ) (hpos : 0 < size) (s : σ) (xs : List α) :
    (blocks size mix s xs).2.length < size := by
  induction hn : xs.length using Nat.strongRecOn generalizing s xs with
  | ind n ih =>
    by_cases h : size ≤ xs.length
    · rw [blocks_step s hpos h]
      exact ih _ (by rw [List.length_drop]; omega) _ _ rfl
    · rw [blocks_short s (by omega)]
      exact Nat.lt_of_not_ge h

/-- Carrying the tail over is mixing the whole stream. -/
theorem blocks_append (mix : σ → List α → σ) (hpos : 0 < size) (s : σ) (xs ys : List α) :
    blocks size mix s (xs ++ ys) =
      blocks size mix (blocks size mix s xs).1 ((blocks size mix s xs).2 ++ ys) := by
  induction hn : xs.length using Nat.strongRecOn generalizing s xs with
  | ind n ih =>
    by_cases h : size ≤ xs.length
    · rw [blocks_step s hpos h, ← ih _ (by rw [List.length_drop]; omega) _ _ rfl,
        ← List.drop_append_of_le_length h, ← List.take_append_of_le_length h]
      exact blocks_step s hpos (by rw [List.length_append]; omega)
    · have hshort : xs.length < size := by omega
      rw [blocks_short s hshort]

end BlockStream
