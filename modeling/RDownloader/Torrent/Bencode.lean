import RDownloader.Lib.Refusing
import RDownloader.Lib.Offsets
import RDownloader.Usenet.Yenc

/-!
# Reading bencode (`rd-torrent/src/bencode.rs`)

Documents come from trackers and from `.torrent` files. The reader goes through one by offsets; a
slice from behind its end would be a fault (`outside`), and so is a call that the bound on the calls
does not allow any more (`exhausted`), which the source does not have.
-/

namespace RDownloader

namespace Bencode

open Faulting Offsets

/-- A decoded bencode value. -/
inductive Value
  | integer (value : Int64)
  | bytes (bytes : Bytes)
  | list (items : List Value)
  | dict (entries : List (Bytes × Value))

/-- Deepest list or dictionary nesting the reader follows. -/
def maxDepth : Nat := 32

inductive Fault
  | outside
  | exhausted
  deriving DecidableEq, Repr

/-- `bytes[start..].iter().position(..)`, as an offset into `bytes`. -/
def position (bytes : Bytes) (start : Nat) (byte : UInt8) : Faulting Fault Nat :=
  if start ≤ bytes.length then lift (((bytes.drop start).idxOf? byte).map (· + start))
  else fault .outside

/-- `usize::checked_add`. -/
def checkedAdd (a b : Nat) : Option Nat := if a + b ≤ u64Max then some (a + b) else none

/-- Reads a bencode byte string at `start`. -/
def readBytes (bytes : Bytes) (start : Nat) : Faulting Fault (Bytes × Nat) := do
  let colon ← position bytes start (ascii ':')
  let digits ← lift (range bytes start colon)
  let length ← lift ((Text.fromUtf8 digits).bind Text.parseU64)
  let valueStart := colon + 1
  let valueEnd ← lift (checkedAdd valueStart length)
  let value ← lift (range bytes valueStart valueEnd)
  return (value, valueEnd)

def readInteger (bytes : Bytes) (start : Nat) : Faulting Fault (Value × Nat) := do
  let last ← position bytes start (ascii 'e')
  let digits ← lift (range bytes (start + 1) last)
  let value ← lift ((Text.fromUtf8 digits).bind Text.parseI64)
  return (.integer (Int64.ofInt value), last + 1)

mutual

/-- Reads the value at `start`, which sits `depth` containers deep, returning it and the offset
just past it. -/
def read (bytes : Bytes) : Nat → Nat → Nat → Faulting Fault (Value × Nat)
  | 0, _, _ => fault .exhausted
  | fuel + 1, start, depth => do
    let first ← lift bytes[start]?
    if first = ascii 'i' then
      readInteger bytes start
    else if ascii '0' ≤ first ∧ first ≤ ascii '9' then
      let (value, next) ← readBytes bytes start
      return (.bytes value, next)
    else if (first = ascii 'l' ∨ first = ascii 'd') ∧ depth ≥ maxDepth then
      lift none
    else if first = ascii 'l' then
      let (items, cursor) ← readItems bytes fuel [] (start + 1) depth
      return (.list items, cursor + 1)
    else if first = ascii 'd' then
      let (entries, cursor) ← readEntries bytes fuel [] (start + 1) depth
      return (.dict entries, cursor + 1)
    else
      lift none
termination_by structural fuel => fuel

/-- The items behind those read so far, and the offset of the end mark. -/
def readItems (bytes : Bytes) :
    Nat → List Value → Nat → Nat → Faulting Fault (List Value × Nat)
  | 0, _, _, _ => fault .exhausted
  | fuel + 1, items, cursor, depth => do
    let first ← lift bytes[cursor]?
    if first = ascii 'e' then
      return (items, cursor)
    else
      let (item, next) ← read bytes fuel cursor (depth + 1)
      readItems bytes fuel (items ++ [item]) next depth
termination_by structural fuel => fuel

/-- The entries behind those read so far, and the offset of the end mark. -/
def readEntries (bytes : Bytes) :
    Nat → List (Bytes × Value) → Nat → Nat → Faulting Fault (List (Bytes × Value) × Nat)
  | 0, _, _, _ => fault .exhausted
  | fuel + 1, entries, cursor, depth => do
    let first ← lift bytes[cursor]?
    if first = ascii 'e' then
      return (entries, cursor)
    else
      let (key, afterKey) ← readBytes bytes cursor
      let (value, afterValue) ← read bytes fuel afterKey (depth + 1)
      readEntries bytes fuel (entries ++ [(key, value)]) afterValue depth
termination_by structural fuel => fuel

end

/-- Decodes one complete bencode document; what comes after it is ignored. -/
def decode (bytes : Bytes) : Faulting Fault Value := do
  let (value, _) ← read bytes (2 * bytes.length + 1) 0 0
  return value

/-! ## Every call goes forward and stays inside -/

section
variable {bytes : Bytes} {start cursor depth fuel : Nat}

/-- What a call that starts at `start` answers ends behind it, and not behind the bytes. -/
def Ahead (bytes : Bytes) (start : Nat) {α : Type} (answer : α × Nat) : Prop :=
  start < answer.2 ∧ answer.2 ≤ bytes.length

theorem position_meets (h : start ≤ bytes.length) (byte : UInt8) :
    Meets (fun place => start ≤ place ∧ place < bytes.length) (position bytes start byte) := by
  rw [position, if_pos h]
  refine Meets.lift fun place hplace => ?_
  obtain ⟨offset, hoffset, rfl⟩ := Option.map_eq_some_iff.mp hplace
  have hlt := lt_of_idxOf? hoffset
  omega

theorem readBytes_ahead (h : start ≤ bytes.length) :
    Meets (Ahead bytes start) (readBytes bytes start) := by
  refine (position_meets h _).bind fun colon hcolon => ?_
  refine (Meets.lift fun _ h => h).bind fun digits _ => ?_
  refine (Meets.lift fun _ h => h).bind fun length _ => ?_
  refine (Meets.lift fun _ h => h).bind fun valueEnd _ => ?_
  refine (Meets.lift fun _ h => h).bind fun value hvalue => ?_
  have hrange := le_of_range hvalue
  exact Meets.pure ⟨by dsimp only; omega, hrange.2⟩

theorem readInteger_ahead (h : start < bytes.length) :
    Meets (Ahead bytes start) (readInteger bytes start) := by
  refine (position_meets (Nat.le_of_lt h) _).bind fun last hlast => ?_
  refine (Meets.lift fun _ h => h).bind fun digits _ => ?_
  refine (Meets.lift fun _ h => h).bind fun value _ => ?_
  exact Meets.pure ⟨Nat.lt_succ_of_le hlast.1, hlast.2⟩

/-- The bound on the calls is twice the bytes that are left, as a loop and the call it makes stand
at one offset. -/
theorem read_ahead (bytes : Bytes) (fuel : Nat) :
    (∀ start depth, 2 * (bytes.length - start) + 1 ≤ fuel →
      Meets (Ahead bytes start) (read bytes fuel start depth)) ∧
    (∀ items cursor depth, 2 * (bytes.length - cursor) + 2 ≤ fuel →
      Meets (fun answer => cursor ≤ answer.2 ∧ answer.2 < bytes.length)
        (readItems bytes fuel items cursor depth)) ∧
    (∀ entries cursor depth, 2 * (bytes.length - cursor) + 2 ≤ fuel →
      Meets (fun answer => cursor ≤ answer.2 ∧ answer.2 < bytes.length)
        (readEntries bytes fuel entries cursor depth)) := by
  induction fuel with
  | zero => exact ⟨by omega, by omega, by omega⟩
  | succ fuel ih =>
    obtain ⟨hread, hitems, hentries⟩ := ih
    have hfirst (at_ : Nat) : Meets (fun _ => at_ < bytes.length)
        (lift bytes[at_]? : Faulting Fault UInt8) :=
      Meets.lift fun _ hbyte => (List.getElem?_eq_some_iff.mp hbyte).1
    refine ⟨fun start depth hfuel => ?_, fun items cursor depth hfuel => ?_,
      fun entries cursor depth hfuel => ?_⟩
    · rw [read]
      refine (hfirst start).bind fun first hlt => ?_
      split
      · exact readInteger_ahead hlt
      split
      · exact (readBytes_ahead (Nat.le_of_lt hlt)).bind fun _ hanswer => Meets.pure hanswer
      split
      · exact Meets.none
      split
      · refine (hitems [] (start + 1) depth (by omega)).bind fun answer hanswer => ?_
        exact Meets.pure ⟨by dsimp only; omega, hanswer.2⟩
      split
      · refine (hentries [] (start + 1) depth (by omega)).bind fun answer hanswer => ?_
        exact Meets.pure ⟨by dsimp only; omega, hanswer.2⟩
      · exact Meets.none
    · rw [readItems]
      refine (hfirst cursor).bind fun first hlt => ?_
      split
      · exact Meets.pure ⟨Nat.le_refl _, hlt⟩
      refine (hread cursor (depth + 1) (by omega)).bind fun item hitem => ?_
      have hitem : cursor < item.2 ∧ item.2 ≤ bytes.length := hitem
      refine (hitems _ item.2 depth (by omega)).mono fun answer hanswer => ?_
      exact ⟨by omega, hanswer.2⟩
    · rw [readEntries]
      refine (hfirst cursor).bind fun first hlt => ?_
      split
      · exact Meets.pure ⟨Nat.le_refl _, hlt⟩
      refine (readBytes_ahead (Nat.le_of_lt hlt)).bind fun key hkey => ?_
      have hkey : cursor < key.2 ∧ key.2 ≤ bytes.length := hkey
      refine (hread key.2 (depth + 1) (by omega)).bind fun value hvalue => ?_
      have hvalue : key.2 < value.2 ∧ value.2 ≤ bytes.length := hvalue
      refine (hentries _ value.2 depth (by omega)).mono fun answer hanswer => ?_
      exact ⟨by omega, hanswer.2⟩

/-- No document makes the decoder fault. -/
theorem decode_meets (bytes : Bytes) : Meets (fun _ => True) (decode bytes) :=
  ((read_ahead bytes _).1 0 0 (Nat.le_refl _)).bind fun _ _ => Meets.pure trivial

end

end Bencode

end RDownloader
