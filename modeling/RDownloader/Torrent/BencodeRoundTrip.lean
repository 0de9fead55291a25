import RDownloader.Torrent.Bencode
import RDownloader.Usenet.YencHeader

/-!
# Reading bencode back

A value is written as trackers write it. The reader gives it back from wherever it stands in a
document, whatever follows it, unless its containers go deeper than the reader follows them.
-/

namespace RDownloader

namespace Bencode

open Faulting Offsets

def encodeBytes (bytes : Bytes) : Bytes :=
  (Nat.toDigits 10 bytes.length).map ascii ++ ascii ':' :: bytes

mutual

def encode : Value → Bytes
  | .integer value => ascii 'i' :: ((Text.ofInt value.toInt).map ascii ++ [ascii 'e'])
  | .bytes bytes => encodeBytes bytes
  | .list items => ascii 'l' :: (encodeItems items ++ [ascii 'e'])
  | .dict entries => ascii 'd' :: (encodeEntries entries ++ [ascii 'e'])

def encodeItems : List Value → Bytes
  | [] => []
  | item :: items => encode item ++ encodeItems items

def encodeEntries : List (Bytes × Value) → Bytes
  | [] => []
  | (key, value) :: entries => encodeBytes key ++ (encode value ++ encodeEntries entries)

end

mutual

/-- How many containers stand in one another. -/
def Value.depth : Value → Nat
  | .integer _ => 0
  | .bytes _ => 0
  | .list items => itemsDepth items + 1
  | .dict entries => entriesDepth entries + 1

def itemsDepth : List Value → Nat
  | [] => 0
  | item :: items => max item.depth (itemsDepth items)

def entriesDepth : List (Bytes × Value) → Nat
  | [] => 0
  | (_, value) :: entries => max value.depth (entriesDepth entries)

end

/-- What holds of a container when it holds of what stands in it, holds of every value. -/
@[elab_as_elim]
theorem Value.induct {P : Value → Prop} (integer : ∀ value, P (.integer value))
    (bytes : ∀ bytes, P (.bytes bytes)) (list : ∀ items, (∀ item ∈ items, P item) → P (.list items))
    (dict : ∀ entries, (∀ entry ∈ entries, P entry.2) → P (.dict entries)) (value : Value) :
    P value := by
  cases value with
  | integer value => exact integer value
  | bytes value => exact bytes value
  | list items => exact list items fun item _ => Value.induct integer bytes list dict item
  | dict entries => exact dict entries fun entry _ => Value.induct integer bytes list dict entry.2
termination_by sizeOf value
decreasing_by
  · have := List.sizeOf_lt_of_mem ‹item ∈ items›
    simp only [Value.list.sizeOf_spec]
    omega
  · have := List.sizeOf_lt_of_mem ‹entry ∈ entries›
    obtain ⟨key, value⟩ := entry
    simp only [Value.dict.sizeOf_spec, Prod.mk.sizeOf_spec] at *
    omega

/-! ## Numbers -/

section
variable {text : Text} {n : Nat}

/-- The characters up to the digits, which no mark of the format is among. -/
def Numeric (text : Text) : Prop := ∀ c ∈ text, c.toNat < 58

theorem numeric_toDigits (n : Nat) : Numeric (Nat.toDigits 10 n) := by
  intro c hc
  have hdigit := Text.isDigit_of_mem_toDigits hc
  simp only [Char.isDigit, Bool.and_eq_true, decide_eq_true_eq] at hdigit
  exact Nat.lt_succ_of_le hdigit.2

theorem numeric_ofInt (value : Int) : Numeric (Text.ofInt value) := by
  cases value with
  | ofNat n => exact numeric_toDigits n
  | negSucc n => exact List.forall_mem_cons.mpr ⟨by decide, numeric_toDigits (n + 1)⟩

theorem Numeric.mark_not_mem {mark : Char} (hlow : 58 ≤ mark.toNat) (hmark : mark.toNat < 128)
    (h : Numeric text) : ascii mark ∉ text.map ascii := by
  intro hmem
  obtain ⟨c, hc, heq⟩ := List.mem_map.mp hmem
  have hlt := h c hc
  have hsame := congrArg UInt8.toNat heq
  rw [Text.ascii_toNat (by omega), Text.ascii_toNat hmark] at hsame
  omega

theorem Numeric.fromUtf8 (h : Numeric text) : Text.fromUtf8 (text.map ascii) = some text := by
  have hascii : text.all (·.toNat < 128) = true := by
    rw [List.all_eq_true]
    exact fun c hc => decide_eq_true (by have := h c hc; omega)
  rw [← Text.encode_ascii hascii, Text.fromUtf8_encode]

theorem parseI64_toInt (value : Int64) :
    (Text.parseI64 (Text.ofInt value.toInt)).map Int64.ofInt = some value := by
  have hlow := value.le_toInt
  have hhigh := value.toInt_lt
  rw [Text.parseI64_ofInt ⟨by rw [i64Max]; omega, by rw [i64Max]; omega⟩, Option.map_some,
    Int64.ofInt_toInt]

end

/-! ## What stands at an offset is read -/

section
variable {bytes value : Bytes} {start : Nat}

theorem position_stands {front : Bytes} {byte : UInt8} (h : Stands bytes start (front ++ [byte]))
    (hbyte : byte ∉ front) : position bytes start byte = lift (some (start + front.length)) := by
  have hstart : start ≤ bytes.length := by
    have hlt := Stands.lt_length h (by simp)
    omega
  rw [position, if_pos hstart, h.idxOf? hbyte, Option.map_some, Nat.add_comm]

theorem readBytes_stands (hbound : bytes.length ≤ i64Max)
    (h : Stands bytes start (encodeBytes value)) :
    readBytes bytes start = lift (some (value, start + (encodeBytes value).length)) := by
  have hdigits := numeric_toDigits value.length
  have hsplit : encodeBytes value =
      ((Nat.toDigits 10 value.length).map ascii ++ [ascii ':']) ++ value := by
    rw [encodeBytes, List.append_assoc]
    rfl
  have hlt := h.lt_length (by simp [encodeBytes])
  have hend := h.length_le (Nat.le_of_lt hlt)
  rw [hsplit] at h hend ⊢
  obtain ⟨hfront, hvalue⟩ := stands_append.mp h
  have hlength := (stands_append.mp hfront).1.range (Nat.le_of_lt hlt)
  have hcolon := position_stands hfront (hdigits.mark_not_mem (by decide) (by decide))
  have hbehind := hvalue.range (hfront.length_le (Nat.le_of_lt hlt))
  rw [List.length_append, List.length_append, List.length_singleton] at hend
  rw [List.length_append, List.length_singleton, ← Nat.add_assoc] at hbehind
  have hword : value.length ≤ u64Max := by
    have := i64Max_le_u64Max
    omega
  have hsum : checkedAdd (start + ((Nat.toDigits 10 value.length).map ascii).length + 1)
      value.length = some (start + ((Nat.toDigits 10 value.length).map ascii).length + 1 +
        value.length) := if_pos (by have := i64Max_le_u64Max; omega)
  rw [readBytes, hcolon, lift_some_bind, hlength, lift_some_bind, hdigits.fromUtf8,
    Option.bind_some, Text.parseU64_toDigits hword, lift_some_bind]
  dsimp only
  rw [hsum, lift_some_bind, hbehind, lift_some_bind, pure_eq, List.length_append,
    List.length_append, List.length_singleton]
  simp only [Nat.add_assoc]

theorem readInteger_stands {value : Int64} (h : Stands bytes start (encode (.integer value))) :
    readInteger bytes start =
      lift (some (.integer value, start + (encode (.integer value)).length)) := by
  have hdigits := numeric_ofInt value.toInt
  have hlt := h.lt_length (by simp [encode])
  rw [encode] at h ⊢
  have hfree : ascii 'e' ∉ ascii 'i' :: (Text.ofInt value.toInt).map ascii := by
    rw [List.mem_cons, not_or]
    exact ⟨by decide, hdigits.mark_not_mem (by decide) (by decide)⟩
  have hmark := position_stands h hfree
  obtain ⟨-, hrest⟩ := stands_cons.mp h
  have hrange := (stands_append.mp hrest).1.range hlt
  have hread : ((Text.fromUtf8 ((Text.ofInt value.toInt).map ascii)).bind Text.parseI64).map
      Int64.ofInt = some value := by
    rw [hdigits.fromUtf8]
    exact parseI64_toInt value
  obtain ⟨n, hn, rfl⟩ := Option.map_eq_some_iff.mp hread
  have hlast : start + (ascii 'i' :: (Text.ofInt (Int64.ofInt n).toInt).map ascii).length =
      start + 1 + ((Text.ofInt (Int64.ofInt n).toInt).map ascii).length := by
    rw [List.length_cons]
    omega
  rw [readInteger, hmark, lift_some_bind, hlast, hrange, lift_some_bind, hn, lift_some_bind,
    pure_eq, List.length_cons, List.length_append, List.length_singleton]
  simp only [Nat.add_assoc, Nat.add_comm, Nat.add_left_comm]

/-! ## What a value begins with -/

theorem encodeBytes_head (value : Bytes) :
    ∃ first rest, encodeBytes value = first :: rest ∧ ascii '0' ≤ first ∧ first ≤ ascii '9' := by
  rw [encodeBytes]
  cases hdigits : Nat.toDigits 10 value.length with
  | nil => exact absurd hdigits Nat.toDigits_ne_nil
  | cons c digits =>
    have hc := Text.isDigit_of_mem_toDigits (hdigits ▸ List.mem_cons_self)
    simp only [Char.isDigit, Bool.and_eq_true, decide_eq_true_eq] at hc
    have hlow : 48 ≤ c.toNat := hc.1
    have hhigh : c.toNat ≤ 57 := hc.2
    have hbyte : (ascii c).toNat = c.toNat := Text.ascii_toNat (by omega)
    refine ⟨ascii c, _, rfl, ?_, ?_⟩
    · rw [UInt8.le_iff_toNat_le, hbyte]
      exact hlow
    · rw [UInt8.le_iff_toNat_le, hbyte]
      exact hhigh

/-- No byte of a length is a mark. -/
theorem ne_of_digit {first : UInt8} {mark : Char} (h : first ≤ ascii '9')
    (hmark : ¬ ascii mark ≤ ascii '9') : first ≠ ascii mark := by
  rintro rfl
  exact hmark h

/-- A container goes on where a value stands. -/
theorem encode_head (value : Value) :
    ∃ first rest, encode value = first :: rest ∧ first ≠ ascii 'e' := by
  cases value with
  | integer value => exact ⟨ascii 'i', _, rfl, by decide⟩
  | bytes value =>
    obtain ⟨first, rest, heq, -, hhigh⟩ := encodeBytes_head value
    exact ⟨first, rest, heq, ne_of_digit hhigh (by decide)⟩
  | list items => exact ⟨ascii 'l', _, rfl, by decide⟩
  | dict entries => exact ⟨ascii 'd', _, rfl, by decide⟩

end

/-! ## One value, from wherever it stands -/

section
variable {bytes : Bytes}

/-- The value is read from wherever it stands, unless its containers go too deep there. -/
def ReadsBack (bytes : Bytes) (value : Value) : Prop :=
  ∀ fuel start depth, Stands bytes start (encode value) → depth ≤ maxDepth →
    2 * (bytes.length - start) + 1 ≤ fuel →
    read bytes fuel start depth = lift (if depth + value.depth ≤ maxDepth then
      some (value, start + (encode value).length) else none)

theorem readsBack_integer (value : Int64) : ReadsBack bytes (.integer value) := by
  rintro (_ | fuel) start depth hstands hdepth hfuel
  · omega
  have hfirst := (stands_cons.mp hstands).1
  have hfits : depth + (Value.integer value).depth ≤ maxDepth := hdepth
  rw [read, hfirst, lift_some_bind, if_pos rfl, readInteger_stands hstands, if_pos hfits]

theorem readsBack_bytes (hbound : bytes.length ≤ i64Max) (value : Bytes) :
    ReadsBack bytes (.bytes value) := by
  rintro (_ | fuel) start depth hstands hdepth hfuel
  · omega
  have hread := readBytes_stands hbound hstands
  obtain ⟨first, rest, heq, hlow, hhigh⟩ := encodeBytes_head value
  rw [encode, heq] at hstands
  have hfirst := (stands_cons.mp hstands).1
  have hfits : depth + (Value.bytes value).depth ≤ maxDepth := hdepth
  rw [read, hfirst, lift_some_bind, if_neg (ne_of_digit hhigh (by decide)), if_pos ⟨hlow, hhigh⟩,
    hread, lift_some_bind, if_pos hfits, encode]
  rfl

theorem readItems_stands {items : List Value} (h : ∀ item ∈ items, ReadsBack bytes item)
    {fuel cursor depth : Nat} (before : List Value) (hdepth : depth < maxDepth)
    (hstands : Stands bytes cursor (encodeItems items ++ [ascii 'e']))
    (hfuel : 2 * (bytes.length - cursor) + 2 ≤ fuel) :
    readItems bytes fuel before cursor depth =
      lift (if depth + 1 + itemsDepth items ≤ maxDepth then
        some (before ++ items, cursor + (encodeItems items).length) else none) := by
  induction items generalizing fuel cursor before with
  | nil =>
    cases fuel with
    | zero => omega
    | succ fuel =>
      have hfirst := (stands_cons.mp hstands).1
      have hfits : depth + 1 + itemsDepth [] ≤ maxDepth := hdepth
      rw [readItems, hfirst, lift_some_bind, if_pos rfl, if_pos hfits, List.append_nil]
      rfl
  | cons item items ih =>
    cases fuel with
    | zero => omega
    | succ fuel =>
      rw [List.forall_mem_cons] at h
      rw [encodeItems, List.append_assoc] at hstands
      obtain ⟨hitem, hrest⟩ := stands_append.mp hstands
      obtain ⟨first, tail, heq, hne⟩ := encode_head item
      have hfirst := (stands_cons.mp (heq ▸ hitem)).1
      have hlt := hitem.lt_length (by rw [heq]; exact List.cons_ne_nil _ _)
      have hlength : 0 < (encode item).length := by rw [heq]; exact Nat.succ_pos _
      rw [readItems, hfirst, lift_some_bind, if_neg hne,
        h.1 fuel cursor (depth + 1) hitem hdepth (by omega)]
      by_cases hfits : depth + 1 + item.depth ≤ maxDepth
      · have hiff : depth + 1 + itemsDepth items ≤ maxDepth ↔
            depth + 1 + itemsDepth (item :: items) ≤ maxDepth := by
          rw [itemsDepth]
          omega
        have hend : cursor + (encode item).length + (encodeItems items).length =
            cursor + (encodeItems (item :: items)).length := by
          rw [encodeItems, List.length_append, Nat.add_assoc]
        rw [if_pos hfits, lift_some_bind]
        dsimp only
        rw [ih h.2 (before ++ [item]) hrest (by omega), hend, List.append_assoc,
          List.singleton_append]
        simp only [hiff]
      · have hdeep : ¬ depth + 1 + itemsDepth (item :: items) ≤ maxDepth := by
          rw [itemsDepth]
          omega
        rw [if_neg hfits, if_neg hdeep, lift_none_bind]

theorem readEntries_stands (hbound : bytes.length ≤ i64Max) {entries : List (Bytes × Value)}
    (h : ∀ entry ∈ entries, ReadsBack bytes entry.2)
    {fuel cursor depth : Nat} (before : List (Bytes × Value)) (hdepth : depth < maxDepth)
    (hstands : Stands bytes cursor (encodeEntries entries ++ [ascii 'e']))
    (hfuel : 2 * (bytes.length - cursor) + 2 ≤ fuel) :
    readEntries bytes fuel before cursor depth =
      lift (if depth + 1 + entriesDepth entries ≤ maxDepth then
        some (before ++ entries, cursor + (encodeEntries entries).length) else none) := by
  induction entries generalizing fuel cursor before with
  | nil =>
    cases fuel with
    | zero => omega
    | succ fuel =>
      have hfirst := (stands_cons.mp hstands).1
      have hfits : depth + 1 + entriesDepth [] ≤ maxDepth := hdepth
      rw [readEntries, hfirst, lift_some_bind, if_pos rfl, if_pos hfits, List.append_nil]
      rfl
  | cons entry entries ih =>
    obtain ⟨key, value⟩ := entry
    cases fuel with
    | zero => omega
    | succ fuel =>
      rw [List.forall_mem_cons] at h
      rw [encodeEntries, List.append_assoc, List.append_assoc] at hstands
      obtain ⟨hkey, hstands⟩ := stands_append.mp hstands
      obtain ⟨hvalue, hrest⟩ := stands_append.mp hstands
      obtain ⟨first, tail, heq, -, hhigh⟩ := encodeBytes_head key
      have hfirst := (stands_cons.mp (heq ▸ hkey)).1
      have hlt := hkey.lt_length (by rw [heq]; exact List.cons_ne_nil _ _)
      have hlength : 0 < (encodeBytes key).length := by rw [heq]; exact Nat.succ_pos _
      rw [readEntries, hfirst, lift_some_bind, if_neg (ne_of_digit hhigh (by decide)),
        readBytes_stands hbound hkey, lift_some_bind]
      dsimp only
      rw [h.1 fuel _ (depth + 1) hvalue hdepth (by omega)]
      by_cases hfits : depth + 1 + value.depth ≤ maxDepth
      · have hiff : depth + 1 + entriesDepth entries ≤ maxDepth ↔
            depth + 1 + entriesDepth ((key, value) :: entries) ≤ maxDepth := by
          rw [entriesDepth]
          omega
        have hend : cursor + (encodeBytes key).length + (encode value).length +
            (encodeEntries entries).length =
            cursor + (encodeEntries ((key, value) :: entries)).length := by
          rw [encodeEntries, List.length_append, List.length_append, ← Nat.add_assoc,
            ← Nat.add_assoc]
        rw [if_pos hfits, lift_some_bind]
        dsimp only
        rw [ih h.2 (before ++ [(key, value)]) hrest (by omega), hend, List.append_assoc,
          List.singleton_append]
        simp only [hiff]
      · have hdeep : ¬ depth + 1 + entriesDepth ((key, value) :: entries) ≤ maxDepth := by
          rw [entriesDepth]
          omega
        rw [if_neg hfits, if_neg hdeep, lift_none_bind]

theorem readsBack_list {items : List Value} (h : ∀ item ∈ items, ReadsBack bytes item) :
    ReadsBack bytes (.list items) := by
  rintro (_ | fuel) start depth hstands hdepth hfuel
  · omega
  rw [encode] at hstands
  have hlt := hstands.lt_length (List.cons_ne_nil _ _)
  obtain ⟨hfirst, hitems⟩ := stands_cons.mp hstands
  rw [read, hfirst, lift_some_bind, if_neg (by decide), if_neg (by decide)]
  by_cases hlimit : depth < maxDepth
  · rw [if_neg (by omega), if_pos rfl, readItems_stands h [] hlimit hitems (by omega), Value.depth]
    by_cases hfits : depth + 1 + itemsDepth items ≤ maxDepth
    · have hend : start + 1 + (encodeItems items).length + 1 =
          start + (encode (.list items)).length := by
        rw [encode, List.length_cons, List.length_append, List.length_singleton]
        omega
      rw [if_pos hfits, if_pos (by omega), lift_some_bind]
      dsimp only
      rw [List.nil_append, hend]
      rfl
    · rw [if_neg hfits, if_neg (by omega), lift_none_bind]
  · rw [if_pos ⟨.inl rfl, Nat.le_of_not_lt hlimit⟩, if_neg (by rw [Value.depth]; omega)]

theorem readsBack_dict (hbound : bytes.length ≤ i64Max) {entries : List (Bytes × Value)}
    (h : ∀ entry ∈ entries, ReadsBack bytes entry.2) : ReadsBack bytes (.dict entries) := by
  rintro (_ | fuel) start depth hstands hdepth hfuel
  · omega
  rw [encode] at hstands
  have hlt := hstands.lt_length (List.cons_ne_nil _ _)
  obtain ⟨hfirst, hentries⟩ := stands_cons.mp hstands
  rw [read, hfirst, lift_some_bind, if_neg (by decide), if_neg (by decide)]
  by_cases hlimit : depth < maxDepth
  · rw [if_neg (by omega), if_neg (by decide), if_pos rfl,
      readEntries_stands hbound h [] hlimit hentries (by omega), Value.depth]
    by_cases hfits : depth + 1 + entriesDepth entries ≤ maxDepth
    · have hend : start + 1 + (encodeEntries entries).length + 1 =
          start + (encode (.dict entries)).length := by
        rw [encode, List.length_cons, List.length_append, List.length_singleton]
        omega
      rw [if_pos hfits, if_pos (by omega), lift_some_bind]
      dsimp only
      rw [List.nil_append, hend]
      rfl
    · rw [if_neg hfits, if_neg (by omega), lift_none_bind]
  · rw [if_pos ⟨.inr rfl, Nat.le_of_not_lt hlimit⟩, if_neg (by rw [Value.depth]; omega)]

theorem readsBack (hbound : bytes.length ≤ i64Max) (value : Value) : ReadsBack bytes value := by
  induction value using Value.induct with
  | integer value => exact readsBack_integer value
  | bytes value => exact readsBack_bytes hbound value
  | list items ih => exact readsBack_list ih
  | dict entries ih => exact readsBack_dict hbound ih

end

/-- A written value is read back exactly when its containers go no deeper than the reader. No slice
of bytes is longer than `isize::MAX`. -/
theorem decode_encode_append (value : Value) (trailing : Bytes)
    (hbound : (encode value ++ trailing).length ≤ i64Max) :
    decode (encode value ++ trailing) =
      lift (if value.depth ≤ maxDepth then some value else none) := by
  have hread := readsBack hbound value _ 0 0 (stands_front _ _) (Nat.zero_le _) (Nat.le_refl _)
  rw [Nat.sub_zero, Nat.zero_add] at hread
  rw [decode, hread]
  split
  · rfl
  · rfl

/-- The reader is total and undoes the encoding. The bound on the length is that of every slice. -/
theorem decode_total_and_undoes :
    (∀ bytes, ∃ answer, decode bytes = lift answer) ∧
      ∀ value trailing, value.depth ≤ maxDepth →
        (encode value ++ trailing).length ≤ i64Max →
        decode (encode value ++ trailing) = lift (some value) := by
  refine ⟨fun bytes => ?_, fun value trailing hdepth hbound => ?_⟩
  · obtain ⟨answer, heq, -⟩ := decode_meets bytes
    exact ⟨answer, heq⟩
  · rw [decode_encode_append value trailing hbound, if_pos hdepth]

/-- A byte string that reads like a list, in a dictionary in a list. -/
def nested : Value :=
  .list [.integer (-7), .dict [("key".toList.map ascii, .bytes ("lei1e".toList.map ascii))]]

theorem nested_undone : decode (encode nested ++ [ascii 'e']) = lift (some nested) :=
  decode_total_and_undoes.2 nested [ascii 'e'] (by decide) (by decide)

/-- A document that breaks off is refused. -/
example : decode ("d3:key".toList.map ascii) = lift none := rfl

end Bencode

end RDownloader
