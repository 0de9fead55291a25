import RDownloader.Core.Failure
import RDownloader.Lib.Cuts

/-!
# What a provider's stream is (`rd-core/src/transform.rs`)

The description of a transformed stream: a cipher, and an integrity specification that cuts the
plaintext into provider chunks at strictly ascending boundaries.
-/

namespace RDownloader

def cipherAes128Ctr : String := "aes-128-ctr"
def integrityCbcMacChain : String := "cbc-mac-chain"

def codeCipherUnknown : String := "transform.cipher_unknown"
def codeIntegrityUnknown : String := "transform.integrity_unknown"
def codeParametersInvalid : String := "transform.parameters_invalid"
def codeKeyMissing : String := "transform.key_missing"
def codeCheckpointMismatch : String := "transform.checkpoint_mismatch"

/-- The largest chunk-boundary list a description may carry. -/
def maxBoundaries : Nat := 200000

structure CipherSpec where
  algorithm : String
  keyReference : Option String
  nonce : List UInt8
  firstBlock : Nat
  deriving DecidableEq, Repr

structure IntegritySpec where
  algorithm : String
  boundaries : List Nat
  iv : List UInt8
  expected : List UInt8
  deriving DecidableEq, Repr

namespace IntegritySpec

/-- Start and end of the chunk with this index, or `none` past the last one. -/
def chunkRange (integrity : IntegritySpec) (index : Nat) : Option (Nat × Nat) :=
  integrity.boundaries[index]?.map fun stop =>
    (if index = 0 then 0 else integrity.boundaries.getD (index - 1) 0, stop)

/-- The index of the chunk `offset` falls in, or `none` past the end. -/
def chunkOf (integrity : IntegritySpec) (offset : Nat) : Option Nat :=
  integrity.boundaries.findIdx? (offset < ·)

/-- The highest boundary at or below `offset`. -/
def alignedFloor (integrity : IntegritySpec) (offset : Nat) : Nat :=
  (integrity.boundaries.reverse.find? (· ≤ offset)).getD 0

def isBoundary (integrity : IntegritySpec) (offset : Nat) : Bool :=
  offset = 0 ∨ offset ∈ integrity.boundaries

def chunkCount (integrity : IntegritySpec) : Nat := integrity.boundaries.length

end IntegritySpec

structure ContentTransform where
  cipher : CipherSpec
  integrity : Option IntegritySpec
  deriving DecidableEq, Repr

/-- A refusal that ends the attempt rather than retrying it. -/
def refusal (code message : String) : Failure := .coded .permanent code message

/-- Keeps a supplied name printable. -/
def sanitise (name : String) : String :=
  .ofList ((name.toList.filter fun c => (33 ≤ c.toNat ∧ c.toNat ≤ 126) ∨ c = ' ').take 64)

/-- Whether every pair of neighbours ascends strictly (`windows(2)`). -/
def strictlyAscending : List Nat → Bool
  | a :: b :: rest => a < b && strictlyAscending (b :: rest)
  | _ => true

namespace IntegritySpec

def validate (integrity : IntegritySpec) : Except Failure Unit :=
  if integrity.algorithm ≠ integrityCbcMacChain then
    .error (refusal codeIntegrityUnknown
      s!"this build implements no integrity algorithm called `{sanitise integrity.algorithm}`")
  else if integrity.iv.length ≠ 16 then
    .error (refusal codeParametersInvalid
      s!"{integrityCbcMacChain} needs a 16-byte IV, got {integrity.iv.length}")
  else if integrity.expected.length ≠ 8 then
    .error (refusal codeParametersInvalid
      s!"{integrityCbcMacChain} condenses to 8 bytes, got {integrity.expected.length}")
  else if integrity.boundaries = [] ∨ integrity.boundaries.length > maxBoundaries then
    .error (refusal codeParametersInvalid
      s!"a chunk boundary list of {integrity.boundaries.length} is not between 1 and {maxBoundaries}")
  else if !strictlyAscending integrity.boundaries ∨ integrity.boundaries.head? = some 0 then
    .error (refusal codeParametersInvalid
      "chunk boundaries must be strictly ascending and above zero")
  else .ok ()

end IntegritySpec

/-- Whether this build knows every primitive named, and whether the parameters fit. -/
def ContentTransform.validate (description : ContentTransform) : Except Failure Unit :=
  if description.cipher.algorithm ≠ cipherAes128Ctr then
    .error (refusal codeCipherUnknown
      s!"this build implements no cipher called `{sanitise description.cipher.algorithm}`")
  else if description.cipher.nonce.length ≠ 8 then
    .error (refusal codeParametersInvalid
      s!"{cipherAes128Ctr} needs an 8-byte nonce, got {description.cipher.nonce.length}")
  else match description.integrity with
    | none => .ok ()
    | some integrity => integrity.validate

/-! ## What validation leaves -/

namespace IntegritySpec

variable {integrity : IntegritySpec}

/-- The boundaries of an integrity specification that passed validation. -/
structure WellFormed (integrity : IntegritySpec) : Prop where
  iv_length : integrity.iv.length = 16
  ascending : Cuts.Ascending integrity.boundaries
  positive : ∀ boundary ∈ integrity.boundaries, 0 < boundary
  nonempty : integrity.boundaries ≠ []

theorem ascending_of_strictlyAscending {boundaries : List Nat}
    (h : strictlyAscending boundaries = true) : Cuts.Ascending boundaries := by
  induction boundaries with
  | nil => exact .nil
  | cons a rest ih =>
    cases rest with
    | nil => exact List.pairwise_singleton ..
    | cons b rest =>
      simp only [strictlyAscending, Bool.and_eq_true, decide_eq_true_eq] at h
      have htail := ih h.2
      refine List.pairwise_cons.mpr ⟨fun x hx => ?_, htail⟩
      rcases List.mem_cons.mp hx with rfl | hx
      · exact h.1
      · exact Nat.lt_trans h.1 ((List.pairwise_cons.mp htail).1 x hx)

theorem wellFormed_of_validate (h : integrity.validate = .ok ()) : integrity.WellFormed := by
  unfold validate at h
  split at h; · cases h
  split at h; · cases h
  next hiv =>
  split at h; · cases h
  split at h; · cases h
  next hcount =>
  split at h; · cases h
  next hbounds =>
  simp only [Bool.not_eq_true', not_or, Bool.not_eq_false] at hbounds hcount
  have hasc := ascending_of_strictlyAscending hbounds.1
  refine ⟨not_not.mp hiv, hasc, fun boundary hmem => ?_, hcount.1⟩
  cases hb : integrity.boundaries with
  | nil => rw [hb] at hmem; cases hmem
  | cons first rest =>
    rw [hb] at hmem hbounds hasc
    have hfirst : first ≠ 0 := by simpa using hbounds.2
    rcases List.mem_cons.mp hmem with rfl | hmem
    · exact Nat.pos_of_ne_zero hfirst
    · have := (List.pairwise_cons.mp hasc).1 _ hmem
      omega

/-- How many provider chunks end at or below `offset`. -/
abbrev passed (integrity : IntegritySpec) (offset : Nat) : Nat :=
  Cuts.passed integrity.boundaries offset

theorem passed_le_chunkCount (integrity : IntegritySpec) (offset : Nat) :
    integrity.passed offset ≤ integrity.chunkCount :=
  Cuts.passed_le_length ..

theorem chunkRange_of_lt (h : index < integrity.chunkCount) :
    integrity.chunkRange index =
      some (Cuts.start integrity.boundaries index, integrity.boundaries[index]) := by
  have hget : integrity.boundaries[index]? = some integrity.boundaries[index] :=
    List.getElem?_eq_getElem h
  cases index with
  | zero => simp [chunkRange, hget, Cuts.start]
  | succ index => simp [chunkRange, hget, Cuts.start]

theorem chunkRange_of_le (h : integrity.chunkCount ≤ index) : integrity.chunkRange index = none := by
  simp [chunkRange, List.getElem?_eq_none h]

namespace WellFormed

theorem chunkOf_of_lt (hwf : integrity.WellFormed)
    (h : integrity.passed offset < integrity.chunkCount) :
    integrity.chunkOf offset = some (integrity.passed offset) := by
  refine List.findIdx?_eq_some_iff_getElem.mpr ⟨h, ?_, fun i hi => ?_⟩
  · simpa using Cuts.lt_end_of_passed hwf.ascending h
  · have hlt : i < integrity.boundaries.length := Nat.lt_trans hi h
    simpa using (Cuts.lt_passed_iff hwf.ascending hlt).mp hi

theorem chunkOf_of_le (hwf : integrity.WellFormed)
    (h : integrity.chunkCount ≤ integrity.passed offset) : integrity.chunkOf offset = none := by
  refine List.findIdx?_eq_none_iff.mpr fun boundary hmem => ?_
  obtain ⟨i, hi, rfl⟩ := List.getElem_of_mem hmem
  simpa using (Cuts.lt_passed_iff hwf.ascending hi).mp (Nat.lt_of_lt_of_le hi h)

theorem isBoundary_iff (hwf : integrity.WellFormed) :
    integrity.isBoundary offset ↔
      Cuts.start integrity.boundaries (integrity.passed offset) = offset := by
  simp only [isBoundary, decide_eq_true_eq]
  constructor
  · rintro (rfl | hmem)
    · exact Nat.le_zero.mp (Cuts.start_passed_le hwf.ascending 0)
    · exact Cuts.start_passed_of_mem hwf.ascending hmem
  · intro h
    cases hp : integrity.passed offset with
    | zero => rw [hp] at h; exact .inl h.symm
    | succ i =>
      have hlt : i < integrity.boundaries.length := by
        rw [← Nat.succ_le_iff, Nat.succ_eq_add_one, ← hp]
        exact integrity.passed_le_chunkCount offset
      rw [hp, Cuts.start_succ hlt] at h
      exact .inr (h ▸ List.getElem_mem hlt)

/-- A boundary is at or below the floor of an offset exactly when it is at or below the offset. -/
theorem le_alignedFloor_iff (hwf : integrity.WellFormed) (hmem : boundary ∈ integrity.boundaries) :
    boundary ≤ integrity.alignedFloor offset ↔ boundary ≤ offset := by
  have hdesc : integrity.boundaries.reverse.Pairwise (· > ·) :=
    List.pairwise_reverse.mpr hwf.ascending
  rw [← List.mem_reverse] at hmem
  unfold alignedFloor
  have hpos : 0 < boundary := hwf.positive _ (List.mem_reverse.mp hmem)
  generalize integrity.boundaries.reverse = falling at hmem hdesc
  induction falling with
  | nil => cases hmem
  | cons top falling ih =>
    obtain ⟨htop, hrest⟩ := List.pairwise_cons.mp hdesc
    by_cases hle : top ≤ offset
    · simp only [List.find?_cons_of_pos (p := fun x => decide (x ≤ offset)) (by simpa using hle),
        Option.getD_some]
      rcases List.mem_cons.mp hmem with rfl | hmem
      · omega
      · have := htop _ hmem
        omega
    · simp only [List.find?_cons_of_neg (p := fun x => decide (x ≤ offset)) (by simpa using hle)]
      rcases List.mem_cons.mp hmem with rfl | hmem
      · refine iff_of_false (fun h => ?_) hle
        cases hfind : falling.find? (· ≤ offset) with
        | none => simp [hfind] at h; omega
        | some found =>
          have := List.find?_some hfind
          simp only [hfind, Option.getD_some, decide_eq_true_eq] at h this
          omega
      · exact ih hmem hrest

end WellFormed
end IntegritySpec

theorem ContentTransform.wellFormed_of_validate {description : ContentTransform}
    {spec : IntegritySpec} (h : description.validate = .ok ())
    (hint : description.integrity = some spec) : spec.WellFormed := by
  unfold ContentTransform.validate at h
  split at h; · cases h
  split at h; · cases h
  rw [hint] at h
  exact IntegritySpec.wellFormed_of_validate h

end RDownloader
