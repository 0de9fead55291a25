import Mathlib.Data.List.Basic

/-!
# Readers of a log of which the newest entries are kept

A channel keeps the newest entries of a log. A reader at a position is handed the entry there, or
is told how many it missed when that one is gone. `Reading` says what a reader that has been told so
much knows of the log.
-/

/-- What a reader of a log is told. -/
inductive Told (α : Type u)
  | item (a : α)
  | lagged (n : Nat)
  deriving DecidableEq, Repr

/-- What a reader was told stands for the entries from `start` to a position: an item for the entry
itself, a lag for as many entries that are gone. -/
inductive Reading {α : Type u} (log : List α) (gone start : Nat) : List (Told α) → Nat → Prop
  | start : Reading log gone start [] start
  | item (h : Reading log gone start told position) (hitem : log[position]? = some a) :
    Reading log gone start (told ++ [.item a]) (position + 1)
  | lagged (h : Reading log gone start told position) (hpos : 0 < n) (hgone : position + n ≤ gone) :
    Reading log gone start (told ++ [.lagged n]) (position + n)

namespace Reading

variable {α : Type u} {log log' : List α} {gone gone' start position : Nat} {told : List (Told α)}

/-- Entries are only added, and what is gone stays gone. -/
theorem mono (h : Reading log gone start told position) (hlog : log <+: log') (hgone : gone ≤ gone') :
    Reading log' gone' start told position := by
  induction h with
  | start => exact .start
  | item _ hitem ih =>
    obtain ⟨later, rfl⟩ := hlog
    obtain ⟨hlt, -⟩ := List.getElem?_eq_some_iff.mp hitem
    exact .item ih ((List.getElem?_append_left hlt).trans hitem)
  | lagged _ hpos hle ih => exact .lagged ih hpos (Nat.le_trans hle hgone)

theorem start_le (h : Reading log gone start told position) : start ≤ position := by
  induction h with
  | start => exact Nat.le_refl _
  | item _ _ ih => exact Nat.le_succ_of_le ih
  | lagged _ _ _ ih => exact Nat.le_add_right_of_le ih

theorem take_succ_eq {n : Nat} {a : α} (hitem : log[start + n]? = some a) :
    (log.drop start).take (n + 1) = (log.drop start).take n ++ [a] := by
  rw [List.take_add_one, List.getElem?_drop, hitem]
  rfl

/-- A reader that was told the entries from the start on. -/
theorem items (n : Nat) (hle : start + n ≤ log.length) :
    Reading log gone start (((log.drop start).take n).map .item) (start + n) := by
  induction n with
  | zero => exact .start
  | succ n ih =>
    have hitem : log[start + n]? = some log[start + n] := List.getElem?_eq_getElem hle
    rw [take_succ_eq hitem, List.map_append]
    exact .item (ih (Nat.le_of_succ_le hle)) hitem

/-- A reader that was told of no lag was told every entry. -/
theorem eq_of_not_lagged (h : Reading log gone start told position)
    (hnone : ∀ n, Told.lagged n ∉ told) :
    told = ((log.drop start).take (position - start)).map .item := by
  induction h with
  | start => simp
  | item h hitem ih =>
    obtain ⟨n, rfl⟩ := Nat.exists_eq_add_of_le h.start_le
    have htold := ih fun m hmem => hnone m (List.mem_append_left _ hmem)
    rw [Nat.add_sub_cancel_left] at htold
    rw [Nat.add_assoc, Nat.add_sub_cancel_left, take_succ_eq hitem, List.map_append, ← htold]
    rfl
  | lagged => exact absurd (List.mem_append_right _ (List.mem_singleton_self _)) (hnone _)

end Reading

/-- A channel that keeps the newest entries. -/
structure Broadcast (α : Type u) where
  capacity : Nat
  retained : List α := []
  tail : Nat := 0

/-- What a receiver gets. -/
inductive Receipt (α : Type u)
  | got (a : α)
  | lagged (n : Nat)
  | empty

def Receipt.told : Receipt α → List (Told α)
  | .got a => [.item a]
  | .lagged n => [.lagged n]
  | .empty => []

namespace Broadcast

variable {α : Type u} (channel : Broadcast α)

def send (a : α) : Broadcast α :=
  { channel with
    retained := (channel.retained ++ [a]).drop (channel.retained.length + 1 - channel.capacity)
    tail := channel.tail + 1 }

def oldest : Nat := channel.tail - channel.retained.length

/-- What a receiver at a position gets, and where it goes on. -/
def recv (position : Nat) : Receipt α × Nat :=
  if position < channel.oldest then (.lagged (channel.oldest - position), channel.oldest)
  else
    match channel.retained[position - channel.oldest]? with
    | some a => (.got a, position + 1)
    | none => (.empty, position)

/-- The channel keeps the newest entries of the log. -/
structure Keeps (log : List α) : Prop where
  tail_eq : channel.tail = log.length
  retained_eq : channel.retained = log.drop (log.length - channel.capacity)

variable {channel} {log : List α}

theorem Keeps.send (h : channel.Keeps log) (a : α) : (channel.send a).Keeps (log ++ [a]) where
  tail_eq := by
    change channel.tail + 1 = _
    rw [h.tail_eq, List.length_append]
    rfl
  retained_eq := by
    have hsend : (channel.send a).retained = (channel.retained ++ [a]).drop
        (channel.retained.length + 1 - channel.capacity) := rfl
    rw [hsend, h.retained_eq, List.length_drop, ← List.drop_append_of_le_length (Nat.sub_le ..),
      List.drop_drop, List.length_append, List.length_singleton]
    congr 1
    change _ = log.length + 1 - channel.capacity
    omega

theorem Keeps.oldest_eq (h : channel.Keeps log) :
    channel.oldest = log.length - channel.capacity := by
  rw [oldest, h.tail_eq, h.retained_eq, List.length_drop]
  omega

theorem Keeps.recv (h : channel.Keeps log) {position : Nat} (hle : position ≤ log.length) :
    match (channel.recv position).1 with
    | .got a => log[position]? = some a ∧ (channel.recv position).2 = position + 1
    | .lagged n => 0 < n ∧ (channel.recv position).2 = position + n ∧
        position + n = log.length - channel.capacity
    | .empty => (channel.recv position).2 = position ∧ position = log.length := by
  have holdest := h.oldest_eq
  by_cases hbehind : position < channel.oldest
  · rw [Broadcast.recv, if_pos hbehind]
    dsimp only
    omega
  · rw [Broadcast.recv, if_neg hbehind]
    have hentry : channel.retained[position - channel.oldest]? = log[position]? := by
      rw [h.retained_eq, ← holdest, List.getElem?_drop]
      congr 1
      omega
    rw [hentry]
    cases hitem : log[position]? with
    | some a => exact ⟨rfl, rfl⟩
    | none => exact ⟨rfl, Nat.le_antisymm hle (List.getElem?_eq_none_iff.mp hitem)⟩

/-- Reading on from a channel. -/
theorem Keeps.reading (h : channel.Keeps log) {start position : Nat} {told : List (Told α)}
    (hreading : Reading log (log.length - channel.capacity) start told position)
    (hle : position ≤ log.length) :
    Reading log (log.length - channel.capacity) start (told ++ (channel.recv position).1.told)
        (channel.recv position).2 ∧
      (channel.recv position).2 ≤ log.length := by
  have hrecv := h.recv hle
  generalize channel.recv position = pair at hrecv ⊢
  obtain ⟨receipt, next⟩ := pair
  cases receipt with
  | got a =>
    obtain ⟨hitem, rfl⟩ := hrecv
    obtain ⟨hlt, -⟩ := List.getElem?_eq_some_iff.mp hitem
    exact ⟨.item hreading hitem, hlt⟩
  | lagged n =>
    obtain ⟨hpos, rfl, hgone⟩ := hrecv
    exact ⟨.lagged hreading hpos (Nat.le_of_eq hgone), hgone ▸ Nat.sub_le ..⟩
  | empty =>
    obtain ⟨rfl, -⟩ := hrecv
    exact ⟨(List.append_nil told).symm ▸ hreading, hle⟩

end Broadcast
