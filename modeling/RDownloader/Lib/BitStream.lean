import Mathlib.Data.Nat.Digits.Defs

/-!
# A stream of bits in groups of two widths

A list of groups of some bits, the most significant first, is a number (`value`). `Repacks` says
that groups of another width are the leading bits of the same stream, some bits being left over.
With less than a whole group left over, the groups are the only ones (`Repacks.unique`).
-/

namespace BitStream

variable {w v left : Nat} {groups more out further : List Nat}

/-- The number that groups of `w` bits write. -/
def value (w : Nat) (groups : List Nat) : Nat := Nat.ofDigits (2 ^ w) groups.reverse

def Fits (w : Nat) (groups : List Nat) : Prop := ∀ group ∈ groups, group < 2 ^ w

@[simp] theorem value_nil : value w [] = 0 := rfl

theorem value_append :
    value w (groups ++ more) = value w groups * 2 ^ (w * more.length) + value w more := by
  rw [value, List.reverse_append, Nat.ofDigits_append, List.length_reverse, ← Nat.pow_mul,
    Nat.mul_comm, Nat.add_comm]
  rfl

theorem value_snoc (group : Nat) :
    value w (groups ++ [group]) = value w groups * 2 ^ w + group := by
  have hgroup : value w [group] = group := Nat.ofDigits_singleton
  rw [value_append, List.length_singleton, Nat.mul_one, hgroup]

theorem value_append_zeros (k : Nat) :
    value w (groups ++ List.replicate k 0) = value w groups * 2 ^ (w * k) := by
  rw [value_append, List.length_replicate, value, value, List.reverse_replicate,
    Nat.ofDigits_replicate_zero, Nat.add_zero]

theorem fits_append : Fits w (groups ++ more) ↔ Fits w groups ∧ Fits w more :=
  List.forall_mem_append

theorem value_lt (hw : 0 < w) (h : Fits w groups) : value w groups < 2 ^ (w * groups.length) := by
  have hlt := Nat.ofDigits_lt_base_pow_length (Nat.one_lt_two_pow hw.ne')
    (fun group hgroup => h group (List.mem_reverse.mp hgroup))
  rwa [List.length_reverse, ← Nat.pow_mul] at hlt

/-- Groups of one width are told apart by the number they write. -/
theorem eq_of_value_eq (hw : 0 < w) (hlength : groups.length = more.length) (h : Fits w groups)
    (hmore : Fits w more) (heq : value w groups = value w more) : groups = more := by
  apply List.reverse_inj.mp
  apply Nat.ofDigits_inj_of_len_eq (Nat.one_lt_two_pow hw.ne')
  · rw [List.length_reverse, List.length_reverse, hlength]
  · exact fun group hgroup => h group (List.mem_reverse.mp hgroup)
  · exact fun group hgroup => hmore group (List.mem_reverse.mp hgroup)
  · exact heq

/-! ## The same stream in another width -/

/-- `out` are the leading bits of `groups`, and the last `left` bits are left over. -/
structure Repacks (w v : Nat) (groups out : List Nat) (left : Nat) : Prop where
  length : w * groups.length = v * out.length + left
  fits : Fits v out
  value : value v out = value w groups / 2 ^ left

namespace Repacks

theorem nil : Repacks w v [] [] 0 := 
  ⟨rfl, fun _ h => (nomatch h), (Nat.zero_div _).symm⟩

/-- A stream behind one that has nothing left over. -/
theorem append (h : Repacks w v groups out 0) (hmore : Repacks w v more further left) :
    Repacks w v (groups ++ more) (out ++ further) left := by
  refine ⟨?_, fits_append.mpr ⟨h.fits, hmore.fits⟩, ?_⟩
  · rw [List.length_append, List.length_append, Nat.mul_add, Nat.mul_add, h.length, hmore.length]
    omega
  · have hwhole : BitStream.value v out = BitStream.value w groups := by
      rw [h.value, Nat.pow_zero, Nat.div_one]
    rw [value_append, value_append, hwhole, hmore.value, hmore.length, Nat.pow_add, ← Nat.mul_assoc,
      Nat.add_comm, Nat.add_comm _ (BitStream.value w more),
      Nat.add_mul_div_right _ _ (Nat.two_pow_pos left)]

/-- One more group that fills no group of the other width is left over. -/
theorem hold (h : Repacks w v groups out left) {group : Nat} (hgroup : group < 2 ^ w) :
    Repacks w v (groups ++ [group]) out (left + w) := by
  refine ⟨?_, h.fits, ?_⟩
  · rw [List.length_append, List.length_singleton, Nat.mul_add, h.length]
    omega
  · rw [value_snoc, h.value, Nat.add_comm left w, Nat.pow_add, ← Nat.div_div_eq_div_mul,
      Nat.add_comm, Nat.add_mul_div_right _ _ (Nat.two_pow_pos w), Nat.div_eq_of_lt hgroup,
      Nat.zero_add]

/-- What is left over, once it is a whole group, is taken out of the number. -/
theorem take (h : Repacks w v groups out (left + v)) :
    Repacks w v groups (out ++ [BitStream.value w groups / 2 ^ left % 2 ^ v]) left := by
  refine ⟨?_, ?_, ?_⟩
  · rw [h.length, List.length_append, List.length_singleton, Nat.mul_add]
    omega
  · refine fits_append.mpr ⟨h.fits, ?_⟩
    rintro group hgroup
    rw [List.mem_singleton.mp hgroup]
    exact Nat.mod_lt _ (Nat.two_pow_pos v)
  · rw [value_snoc, h.value, Nat.pow_add, ← Nat.div_div_eq_div_mul]
    exact Nat.div_add_mod' _ _

/-- With less than a whole group left over, a stream is repacked in one way. -/
theorem unique {left' : Nat} (hleft : left < v) (hleft' : left' < v)
    (h : Repacks w v groups out left) (h' : Repacks w v groups further left') : out = further := by
  have hlength : v * out.length + left = v * further.length + left' :=
    h.length.symm.trans h'.length
  have hrest : left = left' := by
    have hmod := congrArg (· % v) hlength
    simpa only [Nat.mul_add_mod, Nat.mod_eq_of_lt hleft, Nat.mod_eq_of_lt hleft'] using hmod
  subst hrest
  have hpos : 0 < v := by omega
  have hsame : out.length = further.length :=
    Nat.eq_of_mul_eq_mul_left hpos (Nat.add_right_cancel hlength)
  exact eq_of_value_eq hpos hsame h.fits h'.fits (h.value.trans h'.value.symm)

end Repacks

/-! ## Groups taken out of one number -/

/-- The first `count` groups of a number of `total` bits. -/
def leading (w total count n : Nat) : List Nat :=
  (List.range count).map fun index => n / 2 ^ (total - w * (index + 1)) % 2 ^ w

@[simp] theorem length_leading (w total count n : Nat) :
    (leading w total count n).length = count := by simp [leading]

theorem value_leading {total count n : Nat} (h : n < 2 ^ total) (hcount : w * count ≤ total) :
    value w (leading w total count n) = n / 2 ^ (total - w * count) := by
  induction count with
  | zero => exact (Nat.div_eq_of_lt h).symm
  | succ count ih =>
    rw [Nat.mul_succ] at hcount
    have hsplit : total - w * count = total - w * (count + 1) + w := by
      rw [Nat.mul_succ]
      omega
    have hstep : leading w total (count + 1) n =
        leading w total count n ++ [n / 2 ^ (total - w * (count + 1)) % 2 ^ w] := by
      rw [leading, List.range_succ, List.map_append]
      rfl
    rw [hstep, value_snoc, ih (by omega), hsplit, Nat.pow_add, ← Nat.div_div_eq_div_mul]
    exact Nat.div_add_mod' _ _

/-- Groups are read back from the leading bits of the number that they write with zeros behind. -/
theorem repacks_leading {total count : Nat} (hv : 0 < v) (hfits : Fits v out)
    (hout : v * out.length ≤ w * count) (hcount : w * count ≤ total) :
    Repacks w v (leading w total count (value v out * 2 ^ (total - v * out.length))) out
      (w * count - v * out.length) := by
  have hlt : value v out * 2 ^ (total - v * out.length) < 2 ^ total := by
    calc value v out * 2 ^ (total - v * out.length)
        < 2 ^ (v * out.length) * 2 ^ (total - v * out.length) :=
          Nat.mul_lt_mul_of_pos_right (value_lt hv hfits) (Nat.two_pow_pos _)
      _ = 2 ^ total := by rw [← Nat.pow_add, Nat.add_sub_of_le (hout.trans hcount)]
  refine ⟨?_, hfits, ?_⟩
  · rw [length_leading]
    omega
  · have hsum : total - w * count + (w * count - v * out.length) = total - v * out.length := by
      omega
    rw [value_leading hlt hcount, Nat.div_div_eq_div_mul, ← Nat.pow_add, hsum,
      Nat.mul_div_cancel _ (Nat.two_pow_pos _)]

/-! ## A word that groups are shifted into -/

/-- A group shifted into a word pushes the topmost bits out. -/
theorem toNat_shiftLeft_or {word group : UInt64} (hw : w < 64) (h : group.toNat < 2 ^ w) :
    (word <<< UInt64.ofNat w ||| group).toNat = (word.toNat * 2 ^ w + group.toNat) % 2 ^ 64 := by
  have hword : (UInt64.ofNat w).toNat = w := UInt64.toNat_ofNat_of_lt' (by
    rw [UInt64.size]
    omega)
  rw [UInt64.toNat_or, UInt64.toNat_shiftLeft, hword, Nat.mod_eq_of_lt hw, Nat.shiftLeft_eq]
  -- the shifted word has room for the group in its last bits
  have hsplit : 2 ^ 64 = 2 ^ (64 - w) * 2 ^ w := by rw [← Nat.pow_add, Nat.sub_add_cancel hw.le]
  have hroom : word.toNat * 2 ^ w % 2 ^ 64 = 2 ^ w * (word.toNat % 2 ^ (64 - w)) := by
    rw [hsplit, Nat.mul_mod_mul_right, Nat.mul_comm]
  have hlt : 2 ^ w * (word.toNat % 2 ^ (64 - w)) + group.toNat < 2 ^ 64 := by
    rw [hsplit, Nat.mul_comm (2 ^ (64 - w))]
    have hrest : word.toNat % 2 ^ (64 - w) + 1 ≤ 2 ^ (64 - w) := Nat.mod_lt _ (Nat.two_pow_pos _)
    calc 2 ^ w * (word.toNat % 2 ^ (64 - w)) + group.toNat
        < 2 ^ w * (word.toNat % 2 ^ (64 - w) + 1) := by rw [Nat.mul_succ]; omega
      _ ≤ 2 ^ w * 2 ^ (64 - w) := Nat.mul_le_mul_left _ hrest
  rw [hroom, ← Nat.two_pow_add_eq_or_of_lt h, ← Nat.mod_eq_of_lt hlt, Nat.add_mod, ← hroom,
    Nat.mod_mod, ← Nat.add_mod]

/-- What the word still has is read from it as from the whole number. -/
theorem mod_word_div {n left : Nat} (h : left + v ≤ 64) :
    n % 2 ^ 64 / 2 ^ left % 2 ^ v = n / 2 ^ left % 2 ^ v := by
  have hsplit : 2 ^ 64 = 2 ^ left * 2 ^ (64 - left) := by
    rw [← Nat.pow_add, Nat.add_sub_of_le (by omega)]
  rw [hsplit, Nat.mod_mul_right_div_self, Nat.mod_mod_of_dvd _ (Nat.pow_dvd_pow 2 (by omega))]

end BitStream
