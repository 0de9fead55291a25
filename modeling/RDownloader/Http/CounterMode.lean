import RDownloader.Http.Transform

/-!
# Decrypting from anywhere (`StreamTransform::apply`)

A call starts at a counter block made from its position, whose block index wraps within 64 bits, and
counts on in all 128. The two agree as long as the index does not wrap between the calls.
-/

namespace RDownloader

namespace StreamTransform

variable {transform : StreamTransform} {position : Nat} {first second : List UInt8}

/-- The high half of the counter block. -/
def nonceValue (transform : StreamTransform) : Nat :=
  transform.description.cipher.nonce.foldl (fun value byte => 256 * value + byte.toNat) 0

/-- The block index a call at the position starts with. -/
def blockIndex (transform : StreamTransform) (position : Nat) : Nat :=
  (transform.description.cipher.firstBlock + position / blockBytes) % 2 ^ 64

/-- The counter block a call at the position encrypts for a later byte of its buffer. -/
def counter (transform : StreamTransform) (position k : Nat) : Nat :=
  (transform.nonceValue * 2 ^ 64 + transform.blockIndex position +
    (position % blockBytes + k) / blockBytes) % 2 ^ 128

/-- The byte of the key stream. -/
def keyByte (transform : StreamTransform) (position k : Nat) : UInt8 :=
  (transform.encrypt (.ofNat (transform.counter position k))).toList.getD
    ((position % blockBytes + k) % blockBytes) 0

theorem apply_eq (transform : StreamTransform) (position : Nat) (buffer : List UInt8) :
    transform.apply position buffer =
      buffer.mapIdx fun k byte => byte ^^^ transform.keyByte position k :=
  rfl

/-- Applying the transform twice restores the bytes. -/
theorem apply_apply (transform : StreamTransform) (position : Nat) (buffer : List UInt8) :
    transform.apply position (transform.apply position buffer) = buffer := by
  rw [apply_eq, apply_eq, List.mapIdx_mapIdx]
  refine List.ext_getElem (List.length_mapIdx ..) fun k _ _ => ?_
  rw [List.getElem_mapIdx]
  change (buffer[k] ^^^ _) ^^^ _ = _
  rw [UInt8.xor_assoc, UInt8.xor_self, UInt8.xor_zero]

/-- Whether the block index wraps between the block of the position and the one `length` bytes on. -/
def Wraps (transform : StreamTransform) (position length : Nat) : Prop :=
  2 ^ 64 ≤ transform.blockIndex position + (position % blockBytes + length) / blockBytes

/-- The counter of a later call is the one the first call counts on to, unless the index wraps. -/
theorem counter_later (hwraps : ¬transform.Wraps position length) (k : Nat) :
    transform.counter (position + length) k = transform.counter position (length + k) := by
  have hindex : transform.blockIndex (position + length) =
      transform.blockIndex position + (position % blockBytes + length) / blockBytes := by
    unfold Wraps blockIndex at *
    unfold blockBytes at *
    omega
  unfold counter
  rw [hindex]
  congr 1
  unfold blockBytes
  omega

theorem keyByte_later (hwraps : ¬transform.Wraps position length) (k : Nat) :
    transform.keyByte (position + length) k = transform.keyByte position (length + k) := by
  have hwithin : ((position + length) % blockBytes + k) % blockBytes =
      (position % blockBytes + (length + k)) % blockBytes := by
    unfold blockBytes
    omega
  rw [keyByte, keyByte, counter_later hwraps, hwithin]

/-- The file does not depend on where a body is cut, and the transform is its own inverse. -/
structure Seekable (transform : StreamTransform) (position : Nat) (first second : List UInt8) :
    Prop where
  append : transform.apply position (first ++ second) =
    transform.apply position first ++ transform.apply (position + first.length) second
  inverse : transform.apply position (transform.apply position (first ++ second)) = first ++ second

/-- A cut is harmless exactly when the later call has the same key stream. -/
theorem append_iff : transform.apply position (first ++ second) =
      transform.apply position first ++ transform.apply (position + first.length) second ↔
    ∀ k < second.length,
      transform.keyByte position (first.length + k) =
        transform.keyByte (position + first.length) k := by
  simp only [apply_eq, List.mapIdx_append, List.append_cancel_left_eq]
  constructor
  · intro heq k hk
    have hbyte := List.getElem_of_eq heq ((List.length_mapIdx ..).symm ▸ hk)
    rw [List.getElem_mapIdx, List.getElem_mapIdx, UInt8.xor_right_inj, Nat.add_comm] at hbyte
    exact hbyte
  · intro hkeys
    refine List.ext_getElem (by rw [List.length_mapIdx, List.length_mapIdx]) fun k hk _ => ?_
    rw [List.length_mapIdx] at hk
    rw [List.getElem_mapIdx, List.getElem_mapIdx, ← hkeys k hk, Nat.add_comm]

/-- Where the index wraps, the counters of the two calls differ in their high halves. -/
theorem counter_ne (hfile : position + length < 2 ^ 64) (hwraps : transform.Wraps position length) :
    Block.ofNat (transform.counter position length) ≠
      Block.ofNat (transform.counter (position + length) 0) := by
  intro heq
  have hindex : transform.blockIndex position + (position % blockBytes + length) / blockBytes =
      2 ^ 64 + transform.blockIndex (position + length) := by
    unfold Wraps blockIndex at *
    unfold blockBytes at *
    omega
  have hfirst : transform.counter position length =
      ((transform.nonceValue + 1) * 2 ^ 64 + transform.blockIndex (position + length)) % 2 ^ 128 := by
    rw [counter, Nat.add_assoc, hindex, Nat.add_mul, Nat.one_mul, Nat.add_assoc]
  have hsecond : transform.counter (position + length) 0 =
      (transform.nonceValue * 2 ^ 64 + transform.blockIndex (position + length)) % 2 ^ 128 := by
    rw [counter, Nat.add_zero, Nat.div_eq_of_lt (Nat.mod_lt _ (by decide)), Nat.add_zero]
  have hlow : transform.blockIndex (position + length) < 2 ^ 64 := Nat.mod_lt _ (by decide)
  -- The lowest byte of the high half.
  have hbyte := congrArg (fun block : Block => block[7].toNat) heq
  simp only [Block.ofNat, Vector.getElem_ofFn, UInt8.toNat_ofNat'] at hbyte
  rw [hfirst, hsecond] at hbyte
  omega

/-- A cipher that tells one block from all others. -/
def tells (block : Block) : Block → Block :=
  fun other => if other = block then .replicate 16 1 else .zero

theorem toList_tells {block other : Block} {k : Nat} (hk : k < 16) :
    (tells block other).toList.getD k 0 = if other = block then 1 else 0 := by
  unfold tells
  split
  · rw [Vector.toList_replicate, List.getD_eq_getElem?_getD, List.getElem?_replicate, if_pos hk]
    rfl
  · rw [Block.zero, Vector.toList_replicate, List.getD_eq_getElem?_getD, List.getElem?_replicate,
      if_pos hk]
    rfl

@[simp] theorem counter_encrypt (transform : StreamTransform) (encrypt : Block → Block)
    (position k : Nat) :
    counter { transform with encrypt } position k = transform.counter position k :=
  rfl

theorem keyByte_tells (transform : StreamTransform) (block : Block) (position k : Nat) :
    keyByte { transform with encrypt := tells block } position k =
      if Block.ofNat (transform.counter position k) = block then 1 else 0 := by
  have hwithin : (position % blockBytes + k) % blockBytes < 16 := Nat.mod_lt _ (by decide)
  rw [keyByte, counter_encrypt]
  dsimp only
  exact toList_tells hwithin

/-- Whatever the cipher, a body may be cut at a place exactly when nothing is left behind it or the
block index does not wrap before it. -/
theorem seekable_iff (transform : StreamTransform) (hfile : position + first.length < 2 ^ 64) :
    (∀ encrypt, { transform with encrypt }.Seekable position first second) ↔
      second = [] ∨ ¬transform.Wraps position first.length := by
  constructor
  · intro hseekable
    rw [or_iff_not_imp_left, ← ne_eq, ← List.length_pos_iff]
    intro hsecond hwraps
    have hkeys := append_iff.mp
      (hseekable (tells (.ofNat (transform.counter position first.length)))).append 0 hsecond
    have hne := (counter_ne hfile hwraps).symm
    rw [Nat.add_zero, keyByte_tells, keyByte_tells, if_pos rfl, if_neg hne] at hkeys
    exact absurd hkeys (by decide)
  · intro hcut encrypt
    refine ⟨append_iff.mpr fun k hk => ?_, apply_apply ..⟩
    rcases hcut with rfl | hwraps
    · cases hk
    · exact (@keyByte_later { transform with encrypt } position first.length hwraps k).symm

end StreamTransform

/-- The transform of every valid description can be applied piece by piece. -/
def AlwaysSeekable : Prop :=
  ∀ (transform : StreamTransform) (position : Nat) (first second : List UInt8),
    position + first.length < 2 ^ 64 → transform.Seekable position first second

/-- A stream whose first block has the last index. -/
def lastBlockTransform : StreamTransform where
  description := {
    cipher := {
      algorithm := cipherAes128Ctr, keyReference := some "vault://key"
      nonce := List.replicate 8 0, firstBlock := 2 ^ 64 - 1 }
    integrity := none }
  fingerprint := ""
  encrypt := id
  valid := rfl

theorem last_block_not_seekable : ¬AlwaysSeekable := by
  intro h
  have happend := (h lastBlockTransform 0 (.replicate 16 0) (.replicate 8 0) (by decide)).append
  exact absurd happend (by decide)

theorem last_block_within : lastBlockTransform.Seekable 0 [1, 2] [3] :=
  (StreamTransform.seekable_iff lastBlockTransform (by decide)).mpr (.inr (by
    unfold StreamTransform.Wraps
    decide)) id

end RDownloader
