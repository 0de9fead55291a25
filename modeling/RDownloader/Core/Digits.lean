import RDownloader.Core.Text

/-!
# Numbers as texts

Numbers of 32 bits, and that a number is read back from its digits.
-/

namespace RDownloader

namespace Text

/-- `str::parse::<u32>`. -/
def parseU32 (text : Text) : Option Nat :=
  let digits := match text with
    | '+' :: rest => rest
    | _ => text
  (digits? digits).filter (· ≤ u32Max)

/-- How `Display` writes an `i64`. -/
def ofInt : Int → Text
  | .ofNat n => Nat.toDigits 10 n
  | .negSucc n => '-' :: Nat.toDigits 10 (n + 1)

/-- `str::parse::<i64>`. -/
def parseI64 (text : Text) : Option Int :=
  match text with
  | '-' :: rest => ((digits? rest).filter (· ≤ i64Max + 1)).map fun n => -(n : Int)
  | '+' :: rest => ((digits? rest).filter (· ≤ i64Max)).map fun n => (n : Int)
  | text => ((digits? text).filter (· ≤ i64Max)).map fun n => (n : Int)

def hexDigit? (c : Char) : Option Nat :=
  if '0' ≤ c ∧ c ≤ '9' then some (c.toNat - '0'.toNat)
  else if 'a' ≤ c ∧ c ≤ 'f' then some (c.toNat - 'a'.toNat + 10)
  else if 'A' ≤ c ∧ c ≤ 'F' then some (c.toNat - 'A'.toNat + 10)
  else none

def hexStep (value : Option Nat) (c : Char) : Option Nat :=
  value.bind fun value => (hexDigit? c).map (16 * value + ·)

def hexDigits? : Text → Option Nat
  | [] => none
  | text => text.foldl hexStep (some 0)

/-- `u32::from_str_radix` with the base 16. -/
def parseHex32 (text : Text) : Option UInt32 :=
  let digits := match text with
    | '+' :: rest => rest
    | _ => text
  ((hexDigits? digits).filter (· ≤ u32Max)).map UInt32.ofNat

variable {n : Nat} {c : Char} {rest text : Text}

theorem isDigit_of_mem_toDigits (h : c ∈ Nat.toDigits 10 n) : c.isDigit = true :=
  Nat.isDigit_of_mem_toDigits (by decide) (by decide) h

theorem digits_foldl (h : ∀ c ∈ text, c.isDigit = true) (start : Nat) :
    text.foldl (fun value c => value.bind fun value =>
      if c.isDigit then some (10 * value + (c.toNat - '0'.toNat)) else none) (some start) =
      some (Nat.ofDigitChars 10 text start) := by
  induction text generalizing start with
  | nil => rfl
  | cons c text ih =>
    rw [List.forall_mem_cons] at h
    rw [List.foldl_cons, Option.bind_some, if_pos h.1, ih h.2, Nat.ofDigitChars_cons]

theorem digits_toDigits (n : Nat) : digits? (Nat.toDigits 10 n) = some n := by
  have hne : Nat.toDigits 10 n ≠ [] := Nat.toDigits_ne_nil
  have hfold := digits_foldl (fun c hc => isDigit_of_mem_toDigits (n := n) hc) 0
  rw [Nat.ofDigitChars_ten_toDigits] at hfold
  unfold digits?
  split
  next hnil => exact absurd hnil hne
  · exact hfold

theorem parseU64_toDigits (h : n ≤ u64Max) : parseU64 (Nat.toDigits 10 n) = some n := by
  unfold parseU64
  split
  next rest hplus =>
    have hdigit := isDigit_of_mem_toDigits (hplus ▸ List.mem_cons_self : '+' ∈ Nat.toDigits 10 n)
    cases hdigit
  · dsimp only
    rw [digits_toDigits, Option.filter_some, if_pos (decide_eq_true h)]

theorem toDigits_ne_cons (hc : c.isDigit = false) : Nat.toDigits 10 n ≠ c :: rest := by
  intro h
  have hdigit := isDigit_of_mem_toDigits (h ▸ List.mem_cons_self : c ∈ Nat.toDigits 10 n)
  rw [hc] at hdigit
  cases hdigit

theorem parseI64_ofInt {value : Int} (h : -(i64Max + 1) ≤ value ∧ value ≤ i64Max) :
    parseI64 (ofInt value) = some value := by
  cases value with
  | ofNat n =>
    have hle : n ≤ i64Max := Int.ofNat_le.mp h.2
    unfold parseI64
    split
    next hminus => exact (toDigits_ne_cons rfl hminus).elim
    next hplus => exact (toDigits_ne_cons rfl hplus).elim
    · rw [ofInt, digits_toDigits, Option.filter_some, if_pos (decide_eq_true hle)]
      rfl
  | negSucc n =>
    have hle : n + 1 ≤ i64Max + 1 := by
      have hlow := h.1
      omega
    rw [ofInt, parseI64, digits_toDigits, Option.filter_some, if_pos (decide_eq_true hle)]
    rfl

/-- Whatever is read fits the word. -/
theorem isI64_of_parseI64 {value : Int} (h : parseI64 text = some value) :
    -(i64Max + 1) ≤ value ∧ value ≤ i64Max := by
  unfold parseI64 at h
  split at h
  all_goals
    obtain ⟨_, hread, rfl⟩ := Option.map_eq_some_iff.mp h
    obtain ⟨n, hn, ⟨⟩⟩ := Option.bind_eq_some_iff.mp hread
    have hle := of_decide_eq_true (Option.filter_eq_some_iff.mp hn).2
    omega

/-! ## Hexadecimal -/

theorem hexDigit_digitChar : ∀ n < 16, hexDigit? n.digitChar = some n := by decide

theorem hexStep_digitChar (h : n < 16) (value : Nat) :
    hexStep (some value) n.digitChar = some (16 * value + n) := by
  rw [hexStep, Option.bind_some, hexDigit_digitChar n h]
  rfl

theorem hexStep_plus : hexStep (some value) '+' = none := rfl

theorem foldl_hexStep_none (text : Text) : text.foldl hexStep none = none := by
  induction text with
  | nil => rfl
  | cons c text ih => exact ih

theorem foldl_hexStep (n : Nat) : (Nat.toDigits 16 n).foldl hexStep (some 0) = some n := by
  induction n using Nat.strongRecOn with
  | ind n ih =>
    by_cases h : n < 16
    · rw [Nat.toDigits_of_lt_base h, List.foldl_cons, hexStep_digitChar h]
      simp
    · rw [Nat.toDigits_of_base_le (by decide) (by omega), List.foldl_append, ih (n / 16) (by omega),
        List.foldl_cons, hexStep_digitChar (by omega), List.foldl_nil]
      congr 1
      omega

theorem foldl_zeros (k : Nat) : (List.replicate k '0').foldl hexStep (some 0) = some 0 := by
  induction k with
  | zero => rfl
  | succ k ih => exact ih

/-- Zeros in front change nothing. -/
theorem parseHex32_toDigits (k : Nat) (sum : UInt32) :
    parseHex32 (List.replicate k '0' ++ Nat.toDigits 16 sum.toNat) = some sum := by
  have hfold : (List.replicate k '0' ++ Nat.toDigits 16 sum.toNat).foldl hexStep (some 0) =
      some sum.toNat := by
    rw [List.foldl_append, foldl_zeros, foldl_hexStep]
  have hne : List.replicate k '0' ++ Nat.toDigits 16 sum.toNat ≠ [] :=
    List.append_ne_nil_of_right_ne_nil _ Nat.toDigits_ne_nil
  have hword : sum.toNat ≤ u32Max := Nat.le_of_lt_succ sum.toNat_lt
  unfold parseHex32
  split
  next rest hplus =>
    -- a sign is no digit, and nothing but digits comes out as a number
    rw [hplus, List.foldl_cons, hexStep_plus, foldl_hexStep_none] at hfold
    cases hfold
  · dsimp only
    unfold hexDigits?
    split
    next hnil => exact absurd hnil hne
    · rw [hfold, Option.filter_some, if_pos (decide_eq_true hword), Option.map_some,
        UInt32.ofNat_toNat]

end Text
end RDownloader
