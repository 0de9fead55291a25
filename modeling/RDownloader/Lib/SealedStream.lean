import Mathlib.Data.List.Basic

/-!
# Streams sealed chunk by chunk

A plaintext is cut into chunks, and each is encrypted on its own under a nonce that says which chunk
it is and whether it is the last. Under an ideal cipher, one that decrypts what was encrypted and
nothing else, a list of encryptions of this form that were all made for one stream is that stream.
-/

/-- A cipher with associated data. -/
structure Cipher (ν α : Type*) where
  encrypt : ν → α → List UInt8 → List UInt8
  decrypt : ν → α → List UInt8 → Option (List UInt8)

/-- What was encrypted. -/
structure Encryption (ν α : Type*) where
  nonce : ν
  associated : α
  plain : List UInt8
  deriving DecidableEq, Repr

namespace Encryption

variable {ν α : Type*}

/-- The ciphertext. -/
def sealed (cipher : Cipher ν α) (encryption : Encryption ν α) : List UInt8 :=
  cipher.encrypt encryption.nonce encryption.associated encryption.plain

end Encryption

namespace Cipher

variable {ν α : Type*}

/-- What decrypts is what was encrypted. -/
def Ideal (cipher : Cipher ν α) (made : Encryption ν α → Prop) : Prop :=
  ∀ nonce associated text plain, cipher.decrypt nonce associated text = some plain ↔
    made ⟨nonce, associated, plain⟩ ∧ text = cipher.encrypt nonce associated plain

end Cipher

namespace SealedStream

variable {ν α : Type*} (nonce : Nat → Bool → ν) (associated : α)

/-- The encryptions of chunks that others follow. -/
def unfinished (chunks : List (List UInt8)) : List (Encryption ν α) :=
  chunks.mapIdx fun i chunk => ⟨nonce i false, associated, chunk⟩

/-- The encryptions of a stream with its last chunk. -/
def finished (chunks : List (List UInt8)) (last : List UInt8) : List (Encryption ν α) :=
  unfinished nonce associated chunks ++ [⟨nonce chunks.length true, associated, last⟩]

variable {nonce associated} {chunks opened : List (List UInt8)} {last ended chunk : List UInt8}

theorem unfinished_concat : unfinished nonce associated (chunks ++ [chunk]) =
    unfinished nonce associated chunks ++ [⟨nonce chunks.length false, associated, chunk⟩] :=
  List.mapIdx_concat

theorem mem_unfinished {encryption : Encryption ν α} :
    encryption ∈ unfinished nonce associated chunks ↔
      ∃ i, ∃ h : i < chunks.length, ⟨nonce i false, associated, chunks[i]⟩ = encryption :=
  List.mem_mapIdx

/-- The nonces of the first chunks say which chunk they are of, and whether it is the last. -/
def Distinct (nonce : Nat → Bool → ν) (bound : Nat) : Prop :=
  ∀ i j flag flag', i < bound → j < bound → nonce i flag = nonce j flag' → i = j ∧ flag = flag'

theorem last_notMem_unfinished {bound : Nat} (hdistinct : Distinct nonce bound)
    (hopened : opened.length < bound) (hchunks : chunks.length ≤ bound) :
    ⟨nonce opened.length true, associated, ended⟩ ∉ unfinished nonce associated chunks := by
  intro hmem
  obtain ⟨i, hi, heq⟩ := mem_unfinished.mp hmem
  have hnonce := (Encryption.mk.inj heq).1
  exact nomatch (hdistinct _ _ _ _ (Nat.lt_of_lt_of_le hi hchunks) hopened hnonce).2

/-- A stream whose encryptions were all made for another is that one. -/
theorem eq_of_subset {bound : Nat} (hdistinct : Distinct nonce bound) (hopened : opened.length < bound)
    (hchunks : chunks.length < bound)
    (hsubset : finished nonce associated opened ended ⊆ finished nonce associated chunks last) :
    opened = chunks ∧ ended = last := by
  have hended : (⟨nonce opened.length true, associated, ended⟩ : Encryption ν α) ∈
      finished nonce associated chunks last :=
    hsubset (List.mem_append_right _ (List.mem_singleton_self _))
  obtain ⟨hlength, hlast⟩ : opened.length = chunks.length ∧ ended = last := by
    rcases List.mem_append.mp hended with hmem | hmem
    · exact absurd hmem (last_notMem_unfinished hdistinct hopened (Nat.le_of_lt hchunks))
    · obtain ⟨hnonce, -, hlast⟩ := Encryption.mk.inj (List.mem_singleton.mp hmem)
      exact ⟨(hdistinct _ _ _ _ hopened hchunks hnonce).1, hlast⟩
  refine ⟨List.ext_getElem hlength fun i hi hi' => ?_, hlast⟩
  have hmem : (⟨nonce i false, associated, opened[i]⟩ : Encryption ν α) ∈
      finished nonce associated chunks last :=
    hsubset (List.mem_append_left _ (mem_unfinished.mpr ⟨i, hi, rfl⟩))
  rcases List.mem_append.mp hmem with hmem | hmem
  · obtain ⟨j, hj, heq⟩ := mem_unfinished.mp hmem
    obtain ⟨hnonce, -, hchunk⟩ := Encryption.mk.inj heq
    obtain rfl := (hdistinct _ _ _ _ (Nat.lt_trans hj hchunks) (Nat.lt_trans hi hopened) hnonce).1
    exact hchunk.symm
  · have hnonce := (Encryption.mk.inj (List.mem_singleton.mp hmem)).1
    exact nomatch (hdistinct _ _ _ _ (Nat.lt_trans hi hopened) hchunks hnonce).2

end SealedStream
