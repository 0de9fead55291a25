import RDownloader.Core.Text

/-!
# Dates and how they are written

A `NaiveDate` is ordered as a date and stored as a text, and SQLite compares the texts.
-/

namespace RDownloader

/-- `NaiveDate`. -/
structure NaiveDate where
  year : Int
  month : Nat
  day : Nat
  month_le : month ≤ 12
  day_le : day ≤ 31
  deriving DecidableEq, Repr

/-- `DateTime<Utc>`. -/
structure Moment where
  /-- `date_naive`. -/
  dateNaive : NaiveDate
  second : Nat := 0
  deriving DecidableEq, Repr

/-- `DateTime<Utc>` where only its order and distances count, in milliseconds. -/
abbrev Instant := Int

def decimalDigit (n : Nat) : Char := Char.ofNat ('0'.toNat + n)

/-- The last `width` decimal digits of a number. -/
def padded : Nat → Nat → Text
  | 0, _ => []
  | width + 1, n => padded width (n / 10) ++ [decimalDigit (n % 10)]

/-- Texts as SQLite compares them, character by character. -/
def Text.notAfter : Text → Text → Bool
  | [], _ => true
  | _ :: _, [] => false
  | a :: as, b :: bs => a < b || a = b && notAfter as bs

theorem Text.notAfter_refl (text : Text) : notAfter text text := by
  induction text with
  | nil => rfl
  | cons c text ih => simp [notAfter, ih]

theorem Text.notAfter_cons :
    notAfter (a :: as) (b :: bs) ↔ a < b ∨ a = b ∧ notAfter as bs := by
  simp [notAfter]

theorem Text.notAfter_trans {a b c : Text} (h : notAfter a b) (h' : notAfter b c) :
    notAfter a c := by
  induction a generalizing b c with
  | nil => rfl
  | cons x a ih =>
    cases b with
    | nil => cases h
    | cons y b =>
      cases c with
      | nil => cases h'
      | cons z c =>
        rw [notAfter_cons] at h h' ⊢
        rcases h with hlt | ⟨rfl, h⟩
        · rcases h' with hlt' | ⟨rfl, -⟩
          · exact .inl (Char.lt_trans hlt hlt')
          · exact .inl hlt
        · rcases h' with hlt' | ⟨rfl, h'⟩
          · exact .inl hlt'
          · exact .inr ⟨rfl, ih h h'⟩

theorem Text.notAfter_total (a b : Text) : notAfter a b ∨ notAfter b a := by
  induction a generalizing b with
  | nil => exact .inl rfl
  | cons x a ih =>
    cases b with
    | nil => exact .inr rfl
    | cons y b =>
      rw [notAfter_cons, notAfter_cons]
      rcases Nat.lt_trichotomy x.toNat y.toNat with hlt | heq | hgt
      · exact .inl (.inl hlt)
      · obtain rfl : x = y := Char.toNat_inj.mp heq
        exact (ih b).imp (fun h => .inr ⟨rfl, h⟩) fun h => .inr ⟨rfl, h⟩
      · exact .inr (.inl hgt)

theorem Text.notAfter_antisymm {a b : Text} (h : a.notAfter b) (h' : b.notAfter a) : a = b := by
  induction a generalizing b with
  | nil =>
    cases b with
    | nil => rfl
    | cons => cases h'
  | cons c a ih =>
    cases b with
    | nil => cases h
    | cons d b =>
      rw [notAfter_cons] at h h'
      rcases h with h | ⟨rfl, h⟩
      · rcases h' with h' | ⟨rfl, h'⟩
        · exact absurd h' (Nat.lt_asymm h)
        · exact absurd h (Nat.lt_irrefl _)
      · rcases h' with h' | ⟨-, h'⟩
        · exact absurd h' (Nat.lt_irrefl _)
        · rw [ih h h']

namespace NaiveDate

instance : LE NaiveDate where
  le a b := a.year < b.year ∨
    a.year = b.year ∧ (a.month < b.month ∨ a.month = b.month ∧ a.day ≤ b.day)

variable {a b c : NaiveDate}

theorem le_iff : a ≤ b ↔ a.year < b.year ∨
    a.year = b.year ∧ (a.month < b.month ∨ a.month = b.month ∧ a.day ≤ b.day) := .rfl

instance (a b : NaiveDate) : Decidable (a ≤ b) := decidable_of_iff _ le_iff.symm

theorem le_refl (a : NaiveDate) : a ≤ a := .inr ⟨rfl, .inr ⟨rfl, Nat.le_refl _⟩⟩

theorem le_trans (h : a ≤ b) (h' : b ≤ c) : a ≤ c := by
  rw [le_iff] at *
  omega

theorem le_antisymm (h : a ≤ b) (h' : b ≤ a) : a = b := by
  rw [le_iff] at h h'
  obtain ⟨_, _, _, _, _⟩ := a
  obtain ⟨_, _, _, _, _⟩ := b
  simp only [NaiveDate.mk.injEq] at *
  omega

/-- `to_string`: four digits of a year that has them, a sign before any other. -/
def toText (date : NaiveDate) : Text :=
  (if 0 ≤ date.year ∧ date.year ≤ 9999 then padded 4 date.year.toNat
    else (if date.year < 0 then '-' else '+') ::
      (Nat.toDigits 10 date.year.natAbs).leftpad 4 '0') ++
    '-' :: padded 2 date.month ++ '-' :: padded 2 date.day

/-- `%Y`. -/
def yearText (date : NaiveDate) : Text :=
  if 0 ≤ date.year ∧ date.year ≤ 9999 then padded 4 date.year.toNat
  else (if date.year < 0 then '-' else '+') :: (Nat.toDigits 10 date.year.natAbs).leftpad 4 '0'

/-- `%Y-%m`. -/
def monthText (date : NaiveDate) : Text := date.yearText ++ '-' :: padded 2 date.month

/-- The years written with four digits and no sign. -/
def FourDigit (date : NaiveDate) : Prop := 0 ≤ date.year ∧ date.year ≤ 9999

instance (date : NaiveDate) : Decidable date.FourDigit := by
  unfold FourDigit
  infer_instance

end NaiveDate

/-! ## The order of the texts -/

theorem digit_lt_digit : ∀ m < 10, ∀ n < 10, (decimalDigit m < decimalDigit n ↔ m < n) := by decide

theorem digit_inj : ∀ m < 10, ∀ n < 10, (decimalDigit m = decimalDigit n ↔ m = n) := by decide

/-- Equally wide numbers compare as they are written. -/
theorem padded_append_le (hm : m < 10 ^ width) (hn : n < 10 ^ width) :
    Text.notAfter (padded width m ++ xs) (padded width n ++ ys) ↔
      m < n ∨ m = n ∧ Text.notAfter xs ys := by
  induction width generalizing m n xs ys with
  | zero =>
    obtain rfl := Nat.lt_one_iff.mp hm
    obtain rfl := Nat.lt_one_iff.mp hn
    simp [padded]
  | succ width ih =>
    have hm' : m / 10 < 10 ^ width := Nat.div_lt_of_lt_mul (by rwa [Nat.mul_comm])
    have hn' : n / 10 < 10 ^ width := Nat.div_lt_of_lt_mul (by rwa [Nat.mul_comm])
    have hm10 : m % 10 < 10 := Nat.mod_lt _ (by decide)
    have hn10 : n % 10 < 10 := Nat.mod_lt _ (by decide)
    rw [padded, padded, List.append_assoc, List.append_assoc, ih hm' hn', List.singleton_append,
      List.singleton_append, Text.notAfter_cons, digit_lt_digit _ hm10 _ hn10,
      digit_inj _ hm10 _ hn10]
    constructor
    · rintro (h | ⟨h, h' | ⟨h', hle⟩⟩)
      · exact .inl (by omega)
      · exact .inl (by omega)
      · exact .inr ⟨by omega, hle⟩
    · rintro (h | ⟨rfl, hle⟩)
      · rcases Nat.lt_or_ge (m / 10) (n / 10) with hlt | hge
        · exact .inl hlt
        · exact .inr ⟨by omega, .inl (by omega)⟩
      · exact .inr ⟨rfl, .inr ⟨rfl, hle⟩⟩

/-- Dates with a four-decimalDigit year compare as they are written. -/
theorem NaiveDate.toText_le_iff {a b : NaiveDate} (ha : a.FourDigit) (hb : b.FourDigit) :
    Text.notAfter a.toText b.toText ↔ a ≤ b := by
  have hmonth (date : NaiveDate) : date.month < 10 ^ 2 :=
    Nat.lt_of_le_of_lt date.month_le (by decide)
  have hday (date : NaiveDate) : date.day < 10 ^ 2 := Nat.lt_of_le_of_lt date.day_le (by decide)
  obtain ⟨hlow, hhigh⟩ := ha
  obtain ⟨hlow', hhigh'⟩ := hb
  have hdays : Text.notAfter (padded 2 a.day) (padded 2 b.day) ↔ a.day ≤ b.day := by
    have : Text.notAfter (padded 2 a.day ++ []) (padded 2 b.day ++ []) ↔ _ :=
      padded_append_le (hday a) (hday b)
    rw [List.append_nil, List.append_nil] at this
    rw [this, and_iff_left (Text.notAfter_refl _)]
    omega
  rw [toText, toText, if_pos ⟨hlow, hhigh⟩, if_pos ⟨hlow', hhigh'⟩, List.append_assoc,
    List.append_assoc, padded_append_le (by omega) (by omega), List.cons_append, List.cons_append,
    Text.notAfter_cons, padded_append_le (hmonth a) (hmonth b), Text.notAfter_cons, hdays,
    le_iff]
  simp only [Char.lt_irrefl, true_and, false_or]
  omega

/-! ## No two are written alike -/

theorem length_padded (width n : Nat) : (padded width n).length = width := by
  induction width generalizing n with
  | zero => rfl
  | succ width ih => rw [padded, List.length_append, ih, List.length_singleton]

theorem padded_inj (hm : m < 10 ^ width) (hn : n < 10 ^ width)
    (h : padded width m = padded width n) : m = n := by
  have hle {m n : Nat} (hm : m < 10 ^ width) (hn : n < 10 ^ width)
      (h : padded width m = padded width n) : m ≤ n := by
    have hnotAfter : Text.notAfter (padded width m ++ []) (padded width n ++ []) = true := by
      rw [h]
      exact Text.notAfter_refl _
    rcases (padded_append_le hm hn).mp hnotAfter with hlt | ⟨heq, -⟩
    · exact Nat.le_of_lt hlt
    · exact Nat.le_of_eq heq
  exact Nat.le_antisymm (hle hm hn h) (hle hn hm h.symm)

/-- A number in at least `width` digits. -/
theorem leftpad_toDigits_inj {width m n : Nat}
    (h : (Nat.toDigits 10 m).leftpad width '0' = (Nat.toDigits 10 n).leftpad width '0') : m = n := by
  have hread (k : Nat) : Nat.ofDigitChars 10 ((Nat.toDigits 10 k).leftpad width '0') 0 = k := by
    rw [List.leftpad, Nat.ofDigitChars_append, Nat.ofDigitChars_replicate_zero, Nat.mul_zero,
      Nat.ofDigitChars_ten_toDigits]
  rw [← hread m, h, hread]

namespace NaiveDate

variable {a b : NaiveDate}

theorem yearText_of_fourDigit (h : a.FourDigit) : a.yearText = padded 4 a.year.toNat := if_pos h

theorem yearText_of_not_fourDigit (h : ¬ a.FourDigit) : a.yearText =
    (if a.year < 0 then '-' else '+') :: (Nat.toDigits 10 a.year.natAbs).leftpad 4 '0' := if_neg h

/-- Only a year of four digits without a sign is four characters long. -/
theorem length_yearText : a.yearText.length = 4 ↔ a.FourDigit := by
  by_cases h : a.FourDigit
  · rw [yearText_of_fourDigit h, length_padded]
    exact iff_of_true rfl h
  · rw [yearText_of_not_fourDigit h, List.length_cons, List.length_leftpad]
    exact iff_of_false (by omega) h

theorem yearText_inj (h : a.yearText = b.yearText) : a.year = b.year := by
  have hdigit : a.FourDigit ↔ b.FourDigit := by rw [← length_yearText, h, length_yearText]
  by_cases ha : a.FourDigit
  · have hb := hdigit.mp ha
    rw [yearText_of_fourDigit ha, yearText_of_fourDigit hb] at h
    obtain ⟨hlow, hhigh⟩ := ha
    obtain ⟨hlow', hhigh'⟩ := hb
    have := padded_inj (by omega) (by omega) h
    omega
  · rw [yearText_of_not_fourDigit ha, yearText_of_not_fourDigit (fun hb => ha (hdigit.mpr hb))] at h
    obtain ⟨hsign, hdigits⟩ := List.cons.inj h
    have habs := leftpad_toDigits_inj hdigits
    by_cases hneg : a.year < 0 <;> by_cases hneg' : b.year < 0
    · omega
    · rw [if_pos hneg, if_neg hneg'] at hsign
      exact absurd hsign (by decide)
    · rw [if_neg hneg, if_pos hneg'] at hsign
      exact absurd hsign (by decide)
    · omega

theorem monthText_inj (h : a.monthText = b.monthText) : a.year = b.year ∧ a.month = b.month := by
  have hlength : ('-' :: padded 2 a.month).length = ('-' :: padded 2 b.month).length := by
    rw [List.length_cons, List.length_cons, length_padded, length_padded]
  obtain ⟨hyear, hmonth⟩ := List.append_inj' h hlength
  exact ⟨yearText_inj hyear,
    padded_inj (Nat.lt_of_le_of_lt a.month_le (by decide)) (Nat.lt_of_le_of_lt b.month_le (by decide))
      (List.cons.inj hmonth).2⟩

/-- Two dates are not written alike. -/
theorem toText_inj (h : a.toText = b.toText) : a = b := by
  have hlength : ('-' :: padded 2 a.day).length = ('-' :: padded 2 b.day).length := by
    rw [List.length_cons, List.length_cons, length_padded, length_padded]
  obtain ⟨hmonths, hdays⟩ := List.append_inj' h hlength
  obtain ⟨hyear, hmonth⟩ := monthText_inj hmonths
  have hday := padded_inj (Nat.lt_of_le_of_lt a.day_le (by decide))
    (Nat.lt_of_le_of_lt b.day_le (by decide)) (List.cons.inj hdays).2
  obtain ⟨_, _, _, _, _⟩ := a
  obtain ⟨_, _, _, _, _⟩ := b
  exact NaiveDate.mk.injEq .. ▸ ⟨hyear, hmonth, hday⟩

end NaiveDate
end RDownloader
