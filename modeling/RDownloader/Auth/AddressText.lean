import RDownloader.Core.Digits
import RDownloader.Core.Lines
import RDownloader.SiteRules.AddressScope

/-!
# Addresses as texts

The parser of `core::net`, reader by reader: each takes what it reads off the front of a text.
-/

namespace RDownloader

namespace IpAddr

/-- `char::to_digit`. -/
def digit? (radix : Nat) (c : Char) : Option Nat := (Text.hexDigit? c).filter (· < radix)

def number (radix : Nat) (digits : Text) : Nat :=
  digits.foldl (fun value c => radix * value + (digit? radix c).getD 0) 0

/-- `read_number`, with the greatest number of its type. -/
def readNumber (radix maxDigits : Nat) (zeroFirst : Bool) (greatest : Nat) (text : Text) :
    Option (Nat × Text) :=
  let digits := text.takeWhile fun c => (digit? radix c).isSome
  if digits = [] || maxDigits < digits.length ||
      !zeroFirst && digits.head? = some '0' && 1 < digits.length then none
  else if number radix digits ≤ greatest then
    some (number radix digits, text.drop digits.length)
  else none

def readGiven (c : Char) : Text → Option Text
  | [] => none
  | d :: rest => if d = c then some rest else none

/-- `read_separator`: nothing stands before the first. -/
def readSeparator {α : Type} (c : Char) (index : Nat) (read : Text → Option (α × Text))
    (text : Text) : Option (α × Text) :=
  if index = 0 then read text else (readGiven c text).bind read

/-- `read_ipv4_addr`. -/
def readV4 (text : Text) : Option (BitVec 32 × Text) := do
  let (a, rest) ← readNumber 10 3 false 255 text
  let (b, rest) ← (readGiven '.' rest).bind (readNumber 10 3 false 255)
  let (c, rest) ← (readGiven '.' rest).bind (readNumber 10 3 false 255)
  let (d, rest) ← (readGiven '.' rest).bind (readNumber 10 3 false 255)
  return (BitVec.ofNat 32 (((a * 256 + b) * 256 + c) * 256 + d), rest)

/-- `read_groups`, with `left` of `limit` groups to go: the groups, whether the last two were an
IPv4 address, and what follows them. -/
def readGroups (limit : Nat) : Nat → Text → List Nat × Bool × Text
  | 0, text => ([], false, text)
  | left + 1, text =>
    let index := limit - (left + 1)
    -- at least two groups must be left for an IPv4 address
    match if 0 < left then readSeparator ':' index readV4 text else none with
    | some (address, rest) => ([address.toNat / 65536, address.toNat % 65536], true, rest)
    | none =>
      match readSeparator ':' index (readNumber 16 4 true 65535) text with
      | some (group, rest) =>
        let (groups, embedded, rest) := readGroups limit left rest
        (group :: groups, embedded, rest)
      | none => ([], false, text)

def ofGroups (groups : List Nat) : BitVec 128 :=
  BitVec.ofNat 128 (groups.foldl (fun value group => value * 65536 + group) 0)

/-- `read_ipv6_addr`. -/
def readV6 (text : Text) : Option (BitVec 128 × Text) :=
  let (head, embedded, rest) := readGroups 8 8 text
  if head.length = 8 then some (ofGroups head, rest)
  else if embedded then none
  else do
    let rest ← readGiven ':' (← readGiven ':' rest)
    let limit := 8 - (head.length + 1)
    let (tail, _, rest) := readGroups limit limit rest
    return (ofGroups (head ++ List.replicate (8 - tail.length - head.length) 0 ++ tail), rest)

/-- `Ipv4Addr::from_str`. -/
def parseV4 (text : Text) : Option (BitVec 32) :=
  match readV4 text with
  | some (address, []) => some address
  | _ => none

/-- `IpAddr::from_str`. -/
def parse (text : Text) : Option IpAddr :=
  match ((readV4 text).map fun (address, rest) => (v4 address, rest)).or
      ((readV6 text).map fun (address, rest) => (v6 address, rest)) with
  | some (address, []) => some address
  | _ => none

/-! ## A text for every address -/

/-- An address written out in full. -/
def written : IpAddr → Text
  | v4 address =>
    ['.'].intercalate ((List.range 4).map fun index => Nat.toDigits 10 (octet address index))
  | v6 address =>
    [':'].intercalate ((List.range 8).map fun index => Nat.toDigits 16 (segment address index))

variable {radix n k greatest : Nat} {zeroFirst : Bool} {text rest : Text}

theorem digit_digitChar (hradix : radix ≤ 16) (h : n < radix) :
    digit? radix n.digitChar = some n := by
  rw [digit?, Text.hexDigit_digitChar n (Nat.lt_of_lt_of_le h hradix), Option.filter_some,
    if_pos (decide_eq_true h)]

/-- A number is its digits. -/
theorem number_toDigits (hlow : 1 < radix) (hradix : radix ≤ 16) (n : Nat) :
    number radix (Nat.toDigits radix n) = n ∧
      ∀ c ∈ Nat.toDigits radix n, (digit? radix c).isSome := by
  induction n using Nat.strongRecOn with
  | ind n ih =>
    by_cases h : n < radix
    · rw [Nat.toDigits_of_lt_base h]
      have hdigit := digit_digitChar hradix h
      refine ⟨?_, List.forall_mem_singleton.mpr (by rw [hdigit]; rfl)⟩
      rw [number, List.foldl_cons, hdigit]
      simp
    · obtain ⟨hnumber, hdigits⟩ := ih (n / radix) (Nat.div_lt_self (by omega) hlow)
      have hdigit := digit_digitChar hradix (Nat.mod_lt n (by omega : radix > 0))
      rw [Nat.toDigits_of_base_le hlow (Nat.le_of_not_lt h)]
      constructor
      · rw [number, List.foldl_append, ← number, hnumber, List.foldl_cons, hdigit]
        exact Nat.div_add_mod n radix
      · refine List.forall_mem_append.mpr ⟨hdigits, List.forall_mem_singleton.mpr ?_⟩
        rw [hdigit]
        rfl

/-- A number is read up to what is no digit. -/
theorem readNumber_toDigits (hlow : 1 < radix) (hradix : radix ≤ 16) (hk : 0 < k)
    (hlength : n < radix ^ k) (hgreatest : n ≤ greatest)
    (hzero : zeroFirst = false → (Nat.toDigits radix n).head? = some '0' →
      (Nat.toDigits radix n).length ≤ 1)
    (hrest : ∀ c ∈ rest.head?, digit? radix c = none) :
    readNumber radix k zeroFirst greatest (Nat.toDigits radix n ++ rest) = some (n, rest) := by
  obtain ⟨hnumber, hdigits⟩ := number_toDigits hlow hradix n
  have hnil : rest.takeWhile (fun c => (digit? radix c).isSome) = [] := by
    cases rest with
    | nil => rfl
    | cons c rest => exact List.takeWhile_cons_of_neg (by simp [hrest c rfl])
  have htake : (Nat.toDigits radix n ++ rest).takeWhile (fun c => (digit? radix c).isSome) =
      Nat.toDigits radix n := by
    rw [List.takeWhile_append_of_pos hdigits, hnil, List.append_nil]
  have hguard : (Nat.toDigits radix n = [] || k < (Nat.toDigits radix n).length ||
      !zeroFirst && (Nat.toDigits radix n).head? = some '0' &&
        1 < (Nat.toDigits radix n).length) = false := by
    have hle := (Nat.length_toDigits_le_iff hlow hk).mpr hlength
    have hne : Nat.toDigits radix n ≠ [] := Nat.toDigits_ne_nil
    cases zeroFirst with
    | true => simpa [hne] using hle
    | false => simpa [hne, hle] using hzero rfl
  unfold readNumber
  rw [htake]
  dsimp only
  rw [hguard, if_neg Bool.false_ne_true, hnumber, if_pos hgreatest, List.drop_left]

theorem readGiven_cons (c : Char) (rest : Text) : readGiven c (c :: rest) = some rest := if_pos rfl

/-! ### Four octets -/

theorem octet_lt (address : BitVec 32) (index : Nat) : octet address index < 256 :=
  Nat.mod_lt _ (by decide)

theorem readNumber_octet (hn : n < 256) (hrest : ∀ c ∈ rest.head?, digit? 10 c = none) :
    readNumber 10 3 false 255 (Nat.toDigits 10 n ++ rest) = some (n, rest) := by
  have hzero : ∀ n < 256, (Nat.toDigits 10 n).head? = some '0' →
      (Nat.toDigits 10 n).length ≤ 1 := by
    decide +kernel
  exact readNumber_toDigits (by decide) (by decide) (by decide) (Nat.lt_trans hn (by decide))
    (Nat.le_of_lt_succ hn) (fun _ => hzero n hn) hrest

theorem ofNat_octets (address : BitVec 32) :
    BitVec.ofNat 32 (((octet address 0 * 256 + octet address 1) * 256 + octet address 2) * 256 +
      octet address 3) = address := by
  have hlt := address.isLt
  refine BitVec.eq_of_toNat_eq ?_
  rw [BitVec.toNat_ofNat]
  simp only [octet]
  omega

theorem written_v4 (address : BitVec 32) : written (v4 address) =
    Nat.toDigits 10 (octet address 0) ++ '.' :: (Nat.toDigits 10 (octet address 1) ++ '.' ::
      (Nat.toDigits 10 (octet address 2) ++ '.' ::
        (Nat.toDigits 10 (octet address 3) ++ []))) := by
  simp [written, List.range, List.range.loop, List.intercalate_cons_cons]

theorem readV4_written (address : BitVec 32) :
    readV4 (written (v4 address)) = some (address, []) := by
  have hdot (rest : Text) : ∀ c ∈ ('.' :: rest).head?, digit? 10 c = none := by
    rintro _ ⟨⟩
    decide
  have hread (index : Nat) (rest : Text) (hrest : ∀ c ∈ rest.head?, digit? 10 c = none) :=
    readNumber_octet (octet_lt address index) hrest
  unfold readV4
  rw [written_v4, hread 0 _ (hdot _)]
  simp only [Option.bind_eq_bind, Option.bind_some, readGiven_cons, hread 1 _ (hdot _),
    hread 2 _ (hdot _), hread 3 [] nofun]
  exact congrArg (fun address => some (address, [])) (ofNat_octets address)

/-! ### Eight segments -/

theorem segment_lt (address : BitVec 128) (index : Nat) : segment address index < 65536 :=
  Nat.mod_lt _ (by decide)

/-- Groups that each follow a colon. -/
def colonGroups (groups : List Nat) : Text := groups.flatMap fun group => ':' :: Nat.toDigits 16 group

theorem head_colonGroups (groups : List Nat) :
    ∀ c ∈ (colonGroups groups).head?, digit? 16 c = none := by
  cases groups with
  | nil => exact nofun
  | cons group groups =>
    rintro _ ⟨⟩
    decide

theorem written_v6 (address : BitVec 128) : written (v6 address) =
    Nat.toDigits 16 (segment address 0) ++
      colonGroups ((List.range' 1 7).map (segment address)) := by
  simp [written, colonGroups, List.range, List.range.loop, List.range', List.intercalate_cons_cons]

/-- Digits and what stands between them. -/
def isAddressChar (c : Char) : Bool := c = ':' || c = '.' || (Text.hexDigit? c).isSome

theorem isAddressChar_of_digit {c : Char} (h : (digit? radix c).isSome) :
    isAddressChar c = true := by
  rw [isAddressChar, Option.isSome_of_isSome_filter _ _ h, Bool.or_true]

/-- Only digits and colons stand in an address of groups. -/
theorem mem_colonGroups {c : Char} {groups : List Nat} (h : c ∈ colonGroups groups) :
    c = ':' ∨ (digit? 16 c).isSome := by
  obtain ⟨group, -, hgroup⟩ := List.mem_flatMap.mp h
  rcases List.mem_cons.mp hgroup with hcolon | hdigit
  · exact .inl hcolon
  · exact .inr ((number_toDigits (by decide) (by decide) group).2 c hdigit)

theorem mem_written_v6 {c : Char} {address : BitVec 128} (h : c ∈ written (v6 address)) :
    c = ':' ∨ (digit? 16 c).isSome := by
  rw [written_v6, List.mem_append] at h
  rcases h with hfirst | hrest
  · exact .inr ((number_toDigits (by decide) (by decide) _).2 c hfirst)
  · exact mem_colonGroups hrest

theorem readNumber_suffix {value : Nat} {maxDigits : Nat}
    (h : readNumber radix maxDigits zeroFirst greatest text = some (value, rest)) :
    rest <:+ text := by
  unfold readNumber at h
  dsimp only at h
  split at h
  next => cases h
  next =>
    split at h
    next =>
      cases h
      exact List.drop_suffix _ _
    next => cases h

theorem readV4_eq_none (h : '.' ∉ text) : readV4 text = none := by
  unfold readV4
  cases hread : readNumber 10 3 false 255 text with
  | none => rfl
  | some read =>
    obtain ⟨value, rest⟩ := read
    have hdot : readGiven '.' rest = none := by
      cases rest with
      | nil => rfl
      | cons c rest =>
        refine if_neg ?_
        rintro rfl
        exact h ((readNumber_suffix hread).subset List.mem_cons_self)
    simp [hdot]

theorem readNumber_group (hn : n < 65536) (hrest : ∀ c ∈ rest.head?, digit? 16 c = none) :
    readNumber 16 4 true 65535 (Nat.toDigits 16 n ++ rest) = some (n, rest) :=
  readNumber_toDigits (by decide) (by decide) (by decide) hn (Nat.le_of_lt_succ hn) nofun hrest

theorem readGroups_colonGroups {limit : Nat} {groups : List Nat}
    (hgroups : ∀ group ∈ groups, group < 65536) (h : groups.length < limit) :
    readGroups limit groups.length (colonGroups groups) = (groups, false, []) := by
  induction groups with
  | nil => rfl
  | cons group groups ih =>
    obtain ⟨hgroup, hrest⟩ := List.forall_mem_cons.mp hgroups
    rw [List.length_cons] at h ⊢
    have hindex : limit - (groups.length + 1) ≠ 0 := by omega
    have hcolon : colonGroups (group :: groups) =
        ':' :: (Nat.toDigits 16 group ++ colonGroups groups) := rfl
    have hv4 : readV4 (Nat.toDigits 16 group ++ colonGroups groups) = none := by
      refine readV4_eq_none fun hmem => ?_
      have hdot := mem_colonGroups (hcolon ▸ List.mem_cons_of_mem _ hmem)
      revert hdot
      decide
    have hnone : (if 0 < groups.length then
        readSeparator ':' (limit - (groups.length + 1)) readV4 (colonGroups (group :: groups))
        else none) = none := by
      rw [readSeparator, if_neg hindex, hcolon, readGiven_cons, Option.bind_some, hv4, ite_self]
    rw [readGroups, hnone]
    dsimp only
    rw [readSeparator, if_neg hindex, hcolon, readGiven_cons, Option.bind_some,
      readNumber_group hgroup (head_colonGroups groups)]
    dsimp only
    rw [ih hrest (Nat.lt_of_succ_lt h)]

theorem ofGroups_segments (address : BitVec 128) :
    ofGroups ((List.range 8).map (segment address)) = address := by
  have hlt := address.isLt
  refine BitVec.eq_of_toNat_eq ?_
  rw [ofGroups, BitVec.toNat_ofNat]
  simp only [List.range, List.range.loop, List.map_cons, List.map_nil, List.foldl_cons,
    List.foldl_nil, segment]
  omega

theorem readV4_written_v6 (address : BitVec 128) : readV4 (written (v6 address)) = none := by
  refine readV4_eq_none fun hmem => ?_
  have hdot := mem_written_v6 hmem
  revert hdot
  decide

theorem readV6_written (address : BitVec 128) :
    readV6 (written (v6 address)) = some (address, []) := by
  have hsegments : ∀ group ∈ (List.range' 1 7).map (segment address), group < 65536 :=
    List.forall_mem_map.mpr fun index _ => segment_lt address index
  have hrest : readGroups 8 7 (colonGroups ((List.range' 1 7).map (segment address))) =
      ((List.range' 1 7).map (segment address), false, []) :=
    readGroups_colonGroups hsegments (by simp)
  have hgroups : readGroups 8 8 (written (v6 address)) =
      ((List.range 8).map (segment address), false, []) := by
    rw [readGroups, readSeparator, if_pos (Nat.sub_self 8), readV4_written_v6, ite_self]
    dsimp only
    rw [readSeparator, if_pos (Nat.sub_self 8), written_v6,
      readNumber_group (segment_lt address 0) (head_colonGroups _)]
    dsimp only
    rw [hrest]
    rfl
  unfold readV6
  rw [hgroups]
  exact congrArg (fun address => some (address, [])) (ofGroups_segments address)

/-- What is written is read. -/
theorem parse_written (address : IpAddr) : parse (written address) = some address := by
  cases address with
  | v4 address =>
    rw [parse, readV4_written]
    rfl
  | v6 address =>
    rw [parse, readV4_written_v6, readV6_written]
    rfl

theorem isAddressChar_of_mem_toDigits {c : Char} (h : c ∈ Nat.toDigits 10 n) :
    isAddressChar c = true :=
  isAddressChar_of_digit ((number_toDigits (by decide) (by decide) n).2 c h)

theorem mem_written {c : Char} {address : IpAddr} (h : c ∈ written address) :
    isAddressChar c = true := by
  cases address with
  | v4 address =>
    rw [written_v4] at h
    simp only [List.mem_append, List.mem_cons, List.not_mem_nil, or_false] at h
    rcases h with hdigit | rfl | hdigit | rfl | hdigit | rfl | hdigit
    · exact isAddressChar_of_mem_toDigits hdigit
    · rfl
    · exact isAddressChar_of_mem_toDigits hdigit
    · rfl
    · exact isAddressChar_of_mem_toDigits hdigit
    · rfl
    · exact isAddressChar_of_mem_toDigits hdigit
  | v6 address =>
    rcases mem_written_v6 h with rfl | hdigit
    · rfl
    · exact isAddressChar_of_digit hdigit

theorem isWhiteSpace_of_isAddressChar {c : Char} (h : isAddressChar c = true) :
    isWhiteSpace c = false := by
  have hrange : 46 ≤ c.toNat ∧ c.toNat ≤ 102 := by
    simp only [isAddressChar, Bool.or_eq_true, decide_eq_true_eq] at h
    rcases h with (rfl | rfl) | hdigit
    · decide
    · decide
    · have hdecimal : ('0' ≤ c ∧ c ≤ '9') ↔ 48 ≤ c.toNat ∧ c.toNat ≤ 57 := Iff.rfl
      have hsmall : ('a' ≤ c ∧ c ≤ 'f') ↔ 97 ≤ c.toNat ∧ c.toNat ≤ 102 := Iff.rfl
      have hcapital : ('A' ≤ c ∧ c ≤ 'F') ↔ 65 ≤ c.toNat ∧ c.toNat ≤ 70 := Iff.rfl
      unfold Text.hexDigit? at hdigit
      split at hdigit
      next h =>
        have hbounds := hdecimal.mp h
        omega
      next =>
        split at hdigit
        next h =>
          have hbounds := hsmall.mp h
          omega
        next =>
          split at hdigit
          next h =>
            have hbounds := hcapital.mp h
            omega
          next => cases hdigit
  simp only [isWhiteSpace, Bool.or_eq_false_iff, Bool.and_eq_false_iff, decide_eq_false_iff_not]
  omega

end IpAddr
end RDownloader
