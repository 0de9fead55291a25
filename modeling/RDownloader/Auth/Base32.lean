import Mathlib.Data.List.Induction
import RDownloader.Core.Lines
import RDownloader.Lib.BitStream
import RDownloader.Usenet.YencHeader

/-!
# Second-factor secrets as texts (`rd-authn/src/totp.rs`, `rd-api-access/src/mfa_handlers.rs`)

A secret is shown and stored in base 32. The encoder takes five bytes at a time, the decoder shifts
one character after another into a word that keeps only its last 64 bits.
-/

namespace RDownloader

namespace Base32

open BitStream

def alphabet : Vector UInt8 32 :=
  ⟨("ABCDEFGHIJKLMNOPQRSTUVWXYZ234567".toList.map ascii).toArray, by decide⟩

/-- `char::from`, of a byte of the alphabet. -/
def character (index : Fin 32) : Char := Char.ofNat alphabet[index].toNat

/-- `word & 0x1F`, which is an index into the alphabet. -/
def lastFive (word : UInt64) : Fin 32 :=
  ⟨(word &&& 0x1F).toNat, by
    rw [UInt64.toNat_and]
    exact Nat.lt_succ_of_le Nat.and_le_right⟩

/-- `u64::from_be_bytes`. -/
def fromBeBytes (bytes : Bytes) : UInt64 :=
  bytes.foldl (fun word byte => word <<< UInt64.ofNat 8 ||| byte.toUInt64) 0

/-- `slice::chunks`. -/
def chunks (size : Nat) (bytes : Bytes) : List Bytes :=
  if _h : bytes = [] ∨ size = 0 then []
  else bytes.take size :: chunks size (bytes.drop size)
termination_by bytes.length
decreasing_by
  have hne := List.length_pos_iff.mpr fun hnil => _h (.inl hnil)
  have hpos := Nat.pos_of_ne_zero fun hzero => _h (.inr hzero)
  rw [List.length_drop]
  omega

/-- How many characters a chunk gives. -/
def characters : Nat → Nat
  | 1 => 2
  | 2 => 4
  | 3 => 5
  | 4 => 7
  | _ => 8

def encodeChunk (chunk : Bytes) : Text :=
  let buffer := chunk ++ List.replicate (5 - chunk.length) 0
  let bits := fromBeBytes ([0, 0, 0] ++ buffer)
  (List.range (characters chunk.length)).map fun index =>
    character (lastFive (bits >>> UInt64.ofNat (35 - index * 5)))

def base32Encode (bytes : Bytes) : Text := (chunks 5 bytes).flatMap encodeChunk

/-- What the decoder holds between two characters. -/
structure Unpacking where
  bits : Nat := 0
  accumulated : UInt64 := 0
  out : Bytes := []

def Unpacking.push (state : Unpacking) (index : Fin 32) : Unpacking :=
  let accumulated := state.accumulated <<< UInt64.ofNat 5 ||| UInt64.ofNat index
  let bits := state.bits + 5
  if bits ≥ 8 then
    { bits := bits - 8
      accumulated
      out := state.out ++ [(accumulated >>> UInt64.ofNat (bits - 8) &&& 0xFF).toUInt8] }
  else { state with bits, accumulated }

def Unpacking.read (state : Unpacking) (character : UInt8) : Option Unpacking :=
  (alphabet.finIdxOf? character).map state.push

def base32Decode (value : Text) : Option Bytes :=
  (((Text.encode value.trimmed).filter (· ≠ ascii '=')).foldlM Unpacking.read {}).map (·.out)

/-! ## The encoder -/

/-- The indices that a chunk is written with. -/
def chunkIndices (chunk : Bytes) : List (Fin 32) :=
  let bits := fromBeBytes ([0, 0, 0] ++ (chunk ++ List.replicate (5 - chunk.length) 0))
  (List.range (characters chunk.length)).map fun index =>
    lastFive (bits >>> UInt64.ofNat (35 - index * 5))

def indices (bytes : Bytes) : List (Fin 32) := (chunks 5 bytes).flatMap chunkIndices

theorem encodeChunk_eq (chunk : Bytes) :
    encodeChunk chunk = (chunkIndices chunk).map character := by
  rw [chunkIndices, List.map_map]
  rfl

theorem base32Encode_eq (bytes : Bytes) : base32Encode bytes = (indices bytes).map character := by
  rw [base32Encode, indices, List.map_flatMap]
  congr 1
  exact funext encodeChunk_eq

theorem toNat_lastFive (word : UInt64) : (lastFive word : Nat) = word.toNat % 2 ^ 5 := by
  change (word &&& 0x1F).toNat = _
  rw [UInt64.toNat_and]
  exact Nat.and_two_pow_sub_one_eq_mod _ 5

theorem fits_toNat (bytes : Bytes) : Fits 8 (bytes.map UInt8.toNat) := by
  intro group hgroup
  obtain ⟨byte, -, rfl⟩ := List.mem_map.mp hgroup
  exact byte.toNat_lt

theorem toNat_fromBeBytes (bytes : Bytes) :
    (fromBeBytes bytes).toNat = value 8 (bytes.map UInt8.toNat) % 2 ^ 64 := by
  induction bytes using List.reverseRecOn with
  | nil => rfl
  | append_singleton bytes byte ih =>
    have hstep : fromBeBytes (bytes ++ [byte]) =
        fromBeBytes bytes <<< UInt64.ofNat 8 ||| byte.toUInt64 := by
      rw [fromBeBytes, List.foldl_append]
      rfl
    have hbyte : byte.toUInt64.toNat = byte.toNat := UInt8.toNat_toUInt64 byte
    rw [hstep, toNat_shiftLeft_or (by decide) (by rw [hbyte]; exact byte.toNat_lt), hbyte, ih,
      List.map_append, List.map_singleton, value_snoc, Nat.add_mod, Nat.mod_mul_mod, ← Nat.add_mod]

/-- The five bytes behind the three that are zero. -/
theorem toNat_buffer {chunk : Bytes} (h : chunk.length ≤ 5) :
    (fromBeBytes ([0, 0, 0] ++ (chunk ++ List.replicate (5 - chunk.length) 0))).toNat =
      value 8 (chunk.map UInt8.toNat) * 2 ^ (40 - 8 * chunk.length) := by
  have hzeros : (List.replicate (5 - chunk.length) (0 : UInt8)).map UInt8.toNat =
      List.replicate (5 - chunk.length) 0 := List.map_replicate
  have hwidth : 8 * (5 - chunk.length) = 40 - 8 * chunk.length := by omega
  have hlt := value_lt (by decide) (fits_toNat chunk)
  rw [List.length_map] at hlt
  rw [toNat_fromBeBytes, List.map_append, List.map_append, hzeros, value_append,
    value_append_zeros, hwidth]
  have hfront : value 8 (List.map UInt8.toNat [0, 0, 0]) = 0 := rfl
  rw [hfront, Nat.zero_mul, Nat.zero_add]
  apply Nat.mod_eq_of_lt
  calc value 8 (chunk.map UInt8.toNat) * 2 ^ (40 - 8 * chunk.length)
      < 2 ^ (8 * chunk.length) * 2 ^ (40 - 8 * chunk.length) :=
        Nat.mul_lt_mul_of_pos_right hlt (Nat.two_pow_pos _)
    _ = 2 ^ 40 := by rw [← Nat.pow_add, Nat.add_sub_of_le (by omega)]
    _ < 2 ^ 64 := by decide

theorem chunkIndices_eq_leading {chunk : Bytes} (h : chunk.length ≤ 5) :
    (chunkIndices chunk).map Fin.val = leading 5 40 (characters chunk.length)
      (value 8 (chunk.map UInt8.toNat) * 2 ^ (40 - 8 * chunk.length)) := by
  rw [chunkIndices, List.map_map, ← toNat_buffer h, leading]
  apply List.map_congr_left
  intro index _
  have hshift : (UInt64.ofNat (35 - index * 5)).toNat = 40 - 5 * (index + 1) := by
    rw [UInt64.toNat_ofNat_of_lt' (by rw [UInt64.size]; omega)]
    omega
  have hlt : 40 - 5 * (index + 1) < 64 := by omega
  rw [Function.comp_apply, toNat_lastFive, UInt64.toNat_shiftRight, hshift, Nat.mod_eq_of_lt hlt,
    Nat.shiftRight_eq_div_pow]

/-- A chunk gives as many characters as have all of its bits, and no more. -/
theorem characters_fit : ∀ length ≤ 5, 0 < length →
    8 * length ≤ 5 * characters length ∧ 5 * characters length < 8 * length + 5 ∧
      5 * characters length ≤ 40 := by decide

theorem repacks_chunk {chunk : Bytes} (hpos : 0 < chunk.length) (h : chunk.length ≤ 5) :
    Repacks 5 8 ((chunkIndices chunk).map Fin.val) (chunk.map UInt8.toNat)
      (5 * characters chunk.length - 8 * chunk.length) := by
  obtain ⟨hle, -, htotal⟩ := characters_fit chunk.length h hpos
  have hrepacks := repacks_leading (by decide) (fits_toNat chunk)
    (by rwa [List.length_map]) htotal
  rw [List.length_map] at hrepacks
  rwa [chunkIndices_eq_leading h]

theorem indices_cons {bytes : Bytes} (hne : bytes ≠ []) :
    indices bytes = chunkIndices (bytes.take 5) ++ indices (bytes.drop 5) := by
  have hchunks : chunks 5 bytes = bytes.take 5 :: chunks 5 (bytes.drop 5) := by
    rw [chunks, dif_neg (by simpa using hne)]
  rw [indices, hchunks, List.flatMap_cons]
  rfl

theorem indices_nil : indices [] = [] := by
  rw [indices, chunks, dif_pos (.inl rfl)]
  rfl

/-- The bytes are the leading bits of what is written. -/
theorem repacks_indices (bytes : Bytes) : ∃ left < 8,
    Repacks 5 8 ((indices bytes).map Fin.val) (bytes.map UInt8.toNat) left := by
  induction hlength : bytes.length using Nat.strongRecOn generalizing bytes with
  | ind length ih =>
    by_cases hne : bytes = []
    · subst hne
      rw [indices_nil]
      exact ⟨0, by decide, Repacks.nil⟩
    have hpos := List.length_pos_iff.mpr hne
    rw [indices_cons hne, List.map_append]
    by_cases hlast : bytes.length ≤ 5
    · obtain ⟨-, hlt, -⟩ := characters_fit bytes.length hlast hpos
      rw [List.take_of_length_le hlast, List.drop_eq_nil_of_le hlast, indices_nil, List.map_nil,
        List.append_nil]
      exact ⟨_, by omega, repacks_chunk hpos hlast⟩
    · -- a chunk that is followed by another is a whole one, which leaves no bit over
      have hfive : (bytes.take 5).length = 5 := by
        rw [List.length_take]
        omega
      have hchunk := @repacks_chunk (bytes.take 5) (by omega) hfive.le
      rw [hfive] at hchunk
      obtain ⟨left, hleft, hrest⟩ := ih (bytes.drop 5).length (by
        rw [List.length_drop]
        omega) (bytes.drop 5) rfl
      have happend := hchunk.append hrest
      rw [← @List.map_append _ _ UInt8.toNat, List.take_append_drop] at happend
      exact ⟨left, hleft, happend⟩

/-! ## The decoder -/

/-- What the decoder holds behind some indices. -/
structure Unpacking.Behind (state : Unpacking) (groups : List Nat) : Prop where
  bits : state.bits < 8
  accumulated : state.accumulated.toNat = value 5 groups % 2 ^ 64
  out : Repacks 5 8 groups (state.out.map UInt8.toNat) state.bits

namespace Unpacking

theorem behind_nil : Behind {} [] := ⟨by decide, rfl, Repacks.nil⟩

theorem Behind.push {state : Unpacking} {groups : List Nat} (h : state.Behind groups)
    (index : Fin 32) : (state.push index).Behind (groups ++ [index.val]) := by
  have hindex : (UInt64.ofNat index).toNat = index.val :=
    UInt64.toNat_ofNat_of_lt' (index.isLt.trans (by decide))
  have haccumulated : (state.accumulated <<< UInt64.ofNat 5 ||| UInt64.ofNat index).toNat =
      value 5 (groups ++ [index.val]) % 2 ^ 64 := by
    rw [toNat_shiftLeft_or (by decide) (by rw [hindex]; exact index.isLt), hindex, h.accumulated,
      value_snoc, Nat.add_mod, Nat.mod_mul_mod, ← Nat.add_mod]
  have hbits := h.bits
  have hheld := h.out.hold index.isLt
  unfold Unpacking.push
  dsimp only
  split
  next hfull =>
    have hleft : state.bits + 5 = state.bits + 5 - 8 + 8 := by omega
    have hshift : (UInt64.ofNat (state.bits + 5 - 8)).toNat = state.bits + 5 - 8 :=
      UInt64.toNat_ofNat_of_lt' (by rw [UInt64.size]; omega)
    rw [hleft] at hheld
    have hrest : state.bits + 5 - 8 < 8 := by omega
    refine ⟨hrest, haccumulated, ?_⟩
    have hbyte : (((state.accumulated <<< UInt64.ofNat 5 ||| UInt64.ofNat index) >>>
        UInt64.ofNat (state.bits + 5 - 8) &&& 0xFF).toUInt8).toNat =
        value 5 (groups ++ [index.val]) / 2 ^ (state.bits + 5 - 8) % 2 ^ 8 := by
      rw [UInt64.toNat_toUInt8, UInt64.toNat_and, UInt64.toNat_shiftRight, hshift, haccumulated,
        Nat.mod_eq_of_lt (by omega : state.bits + 5 - 8 < 64), Nat.shiftRight_eq_div_pow]
      have hmask : (0xFF : UInt64).toNat = 2 ^ 8 - 1 := rfl
      rw [hmask, Nat.and_two_pow_sub_one_eq_mod, Nat.mod_mod, mod_word_div (by omega)]
    rw [List.map_append, List.map_singleton, hbyte]
    exact hheld.take
  next hshort => exact ⟨Nat.lt_of_not_le hshort, haccumulated, hheld⟩

theorem Behind.foldl {state : Unpacking} {groups : List Nat} (h : state.Behind groups)
    (indices : List (Fin 32)) :
    (indices.foldl Unpacking.push state).Behind (groups ++ indices.map Fin.val) := by
  induction indices generalizing state groups with
  | nil => rwa [List.map_nil, List.append_nil]
  | cons index indices ih =>
    rw [List.foldl_cons, List.map_cons, List.append_cons]
    exact ih (h.push index)

end Unpacking

/-! ## The alphabet -/

theorem finIdxOf?_alphabet : ∀ index, alphabet.finIdxOf? alphabet[index] = some index := by
  decide +kernel

theorem character_ascii : ∀ index, (character index).toNat < 128 ∧
    ascii (character index) = alphabet[index] := by decide

theorem character_kept : ∀ index, isWhiteSpace (character index) = false ∧
    alphabet[index] ≠ ascii '=' := by decide

/-- The decoder goes through the bytes that the encoder has put. -/
theorem bytes_of_indices (indices : List (Fin 32)) :
    (Text.encode (Text.trimmed (indices.map character))).filter (· ≠ ascii '=') =
      indices.map (alphabet[·]) := by
  have htight : Text.trimmed (indices.map character) = indices.map character := by
    apply Text.trimmed_of_tight
    apply Text.tight_of_forall
    intro c hc
    obtain ⟨index, -, rfl⟩ := List.mem_map.mp hc
    exact (character_kept index).1
  have hascii : (indices.map character).all (·.toNat < 128) = true := by
    rw [List.all_map, List.all_eq_true]
    exact fun index _ => decide_eq_true (character_ascii index).1
  have hbytes : (indices.map character).map ascii = indices.map (alphabet[·]) := by
    rw [List.map_map]
    exact List.map_congr_left fun index _ => (character_ascii index).2
  rw [htight, Text.encode_ascii hascii, hbytes, List.filter_eq_self]
  intro byte hbyte
  obtain ⟨index, -, rfl⟩ := List.mem_map.mp hbyte
  exact decide_eq_true (character_kept index).2

theorem foldlM_read (indices : List (Fin 32)) (state : Unpacking) :
    (indices.map (alphabet[·])).foldlM Unpacking.read state =
      some (indices.foldl Unpacking.push state) := by
  induction indices generalizing state with
  | nil => rfl
  | cons index indices ih =>
    rw [List.map_cons, List.foldlM_cons, Unpacking.read, finIdxOf?_alphabet]
    exact ih _

/-- A secret reads back. -/
theorem base32Decode_base32Encode (bytes : Bytes) :
    base32Decode (base32Encode bytes) = some bytes := by
  obtain ⟨left, hleft, hrepacks⟩ := repacks_indices bytes
  have hbehind := Unpacking.behind_nil.foldl (indices bytes)
  rw [List.nil_append] at hbehind
  have hout := Repacks.unique hbehind.bits hleft hbehind.out hrepacks
  rw [base32Decode, base32Encode_eq, bytes_of_indices, foldlM_read, Option.map_some]
  rw [(List.map_inj_right fun _ _ => UInt8.toNat_inj.mp).mp hout]

/-- Padding is skipped, and small letters are not read. -/
example : base32Decode "MZXW6YQ=".toList = some ("foob".toList.map ascii) ∧
    base32Decode "mzxw6yq=".toList = none := by decide +kernel

end Base32

end RDownloader
