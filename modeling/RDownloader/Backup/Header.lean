import RDownloader.Backup.Stream

/-!
# The header and the nonces

A header is read back from what it was written as, and nothing else reads as it. A nonce says which
archive, which chunk and whether it is the last.
-/

namespace RDownloader

namespace Backup

theorem leWord_leBytes {n : Nat} (h : n < 2 ^ 32) : leWord (leBytes n) = n := by
  simp only [leWord, leBytes, List.foldr_cons, List.foldr_nil, UInt8.toNat_ofNat']
  omega

theorem leBytes_leWord {bytes : List UInt8} (h : bytes.length = 4) : leBytes (leWord bytes) = bytes := by
  obtain ⟨a, b, c, d, rfl⟩ := List.length_eq_four.mp h
  have ha := a.toNat_lt
  have hb := b.toNat_lt
  have hc := c.toNat_lt
  have hd := d.toNat_lt
  simp only [leWord, leBytes, List.foldr_cons, List.foldr_nil, List.cons.injEq, and_true]
  refine ⟨?_, ?_, ?_, ?_⟩ <;>
  · apply UInt8.toNat_inj.mp
    rw [UInt8.toNat_ofNat']
    omega

theorem length_leBytes (n : Nat) : (leBytes n).length = 4 := rfl

theorem nonce_inj {noncePrefix noncePrefix' : List.Vector UInt8 noncePrefixLen} {i j : Nat}
    {last last' : Bool} (hi : i < 2 ^ 32) (hj : j < 2 ^ 32)
    (h : nonce noncePrefix i last = nonce noncePrefix' j last') :
    noncePrefix = noncePrefix' ∧ i = j ∧ last = last' := by
  obtain ⟨hnonce, hrest⟩ := List.append_inj h
    (noncePrefix.toList_length.trans noncePrefix'.toList_length.symm)
  obtain ⟨hcounter, hlast⟩ := List.append_inj hrest rfl
  refine ⟨List.Vector.eq _ _ hnonce, ?_, ?_⟩
  · rw [← leWord_leBytes hi, List.reverse_injective hcounter, leWord_leBytes hj]
  · cases last <;> cases last' <;> first | rfl | exact absurd hlast (by decide)

theorem distinct_nonce (noncePrefix : List.Vector UInt8 noncePrefixLen) :
    SealedStream.Distinct (nonce noncePrefix) (2 ^ 32) :=
  fun _ _ _ _ hi hj h => (nonce_inj hi hj h).2

namespace Header

@[simp] theorem length_magic : magic.length = 8 := by decide

/-- The slice after so many bytes. -/
theorem slice_skip {before after : List UInt8} {start skipped length : Nat}
    (hlength : before.length = skipped) (hle : skipped ≤ start) :
    slice (before ++ after) start length = slice after (start - skipped) length := by
  obtain ⟨more, rfl⟩ := Nat.exists_eq_add_of_le hle
  subst hlength
  rw [slice, slice, ← List.drop_drop, List.drop_left, Nat.add_sub_cancel_left]

theorem slice_here {field after : List UInt8} {length : Nat} (hlength : field.length = length) :
    slice (field ++ after) 0 length = field := by
  subst hlength
  exact List.take_left

theorem length_salt (header : Header) : header.salt.toList.length = 16 := header.salt.toList_length

theorem length_noncePrefix (header : Header) : header.noncePrefix.toList.length = 19 :=
  header.noncePrefix.toList_length

theorem length_encode (header : Header) : header.encode.length = headerLen := by
  simp only [encode, List.length_append, length_magic, length_leBytes, length_salt,
    length_noncePrefix]
  rfl

theorem slice_append_drop (bytes : List UInt8) (start length : Nat) :
    slice bytes start length ++ bytes.drop (start + length) = bytes.drop start := by
  rw [slice, ← List.drop_drop, List.take_append_drop]

/-- Where the fields of a header are. -/
theorem slice_encode (header : Header) (rest : List UInt8) :
    slice (header.encode ++ rest) 0 8 = magic ∧
    slice (header.encode ++ rest) 8 2 = [containerVersion, kdfArgon2id] ∧
    slice (header.encode ++ rest) 10 4 = leBytes kdfMCost ∧
    slice (header.encode ++ rest) 14 4 = leBytes kdfTCost ∧
    slice (header.encode ++ rest) 18 4 = leBytes kdfPCost ∧
    slice (header.encode ++ rest) 22 saltLen = header.salt.toList ∧
    slice (header.encode ++ rest) (22 + saltLen) noncePrefixLen = header.noncePrefix.toList ∧
    slice (header.encode ++ rest) (22 + saltLen + noncePrefixLen) 4 = leBytes header.chunkLen := by
  have hversion : [containerVersion, kdfArgon2id].length = 2 := rfl
  simp only [encode, List.append_assoc]
  refine ⟨slice_here length_magic, ?_, ?_, ?_, ?_, ?_, ?_, ?_⟩
  all_goals rw [slice_skip length_magic (by decide)]
  · exact slice_here hversion
  all_goals rw [slice_skip hversion (by decide)]
  · exact slice_here (length_leBytes _)
  all_goals rw [slice_skip (length_leBytes _) (by decide)]
  · exact slice_here (length_leBytes _)
  all_goals rw [slice_skip (length_leBytes _) (by decide)]
  · exact slice_here (length_leBytes _)
  all_goals rw [slice_skip (length_leBytes _) (by decide)]
  · exact slice_here header.length_salt
  all_goals rw [slice_skip header.length_salt (by decide)]
  · exact slice_here header.length_noncePrefix
  · rw [slice_skip header.length_noncePrefix (by decide)]
    exact slice_here (length_leBytes _)

theorem encode_injective : Function.Injective encode := by
  intro header header' h
  obtain ⟨-, -, -, -, -, hsalt, hnonce, hlen⟩ := slice_encode header []
  obtain ⟨-, -, -, -, -, hsalt', hnonce', hlen'⟩ := slice_encode header' []
  rw [h] at hsalt hnonce hlen
  refine Header.ext ?_ ?_ (Fin.ext ?_)
  · exact List.Vector.eq _ _ (hsalt.symm.trans hsalt')
  · exact List.Vector.eq _ _ (hnonce.symm.trans hnonce')
  · rw [← leWord_leBytes header.chunkLen.2, hlen.symm.trans hlen', leWord_leBytes header'.chunkLen.2]

/-- A header reads as what was written. -/
theorem read_encode (header : Header) (rest : List UInt8)
    (hpos : header.chunkLen.val ≠ 0) (hmax : header.chunkLen.val ≤ maxChunkLen) :
    read (header.encode ++ rest) = .ok (header, rest) := by
  have hlong : ¬(header.encode ++ rest).length < headerLen := by
    rw [List.length_append, length_encode]
    omega
  obtain ⟨hmagic, hversion, hm, ht, hp, hsalt, hnonce, hlen⟩ := slice_encode header rest
  have hword : leWord (slice (header.encode ++ rest) (22 + saltLen + noncePrefixLen) 4) =
      header.chunkLen := by
    rw [hlen, leWord_leBytes header.chunkLen.2]
  unfold read
  rw [dif_neg hlong, if_neg (not_not.mpr hmagic), if_neg (not_not.mpr hversion), if_neg (not_not.mpr
    (by rw [hm, ht, hp]; decide))]
  dsimp only
  rw [dif_neg (by omega)]
  refine congrArg Except.ok (Prod.ext (Header.ext ?_ ?_ ?_) ?_)
  · exact List.Vector.eq _ _ hsalt
  · exact List.Vector.eq _ _ hnonce
  · exact Fin.ext hword
  · exact List.drop_left' header.length_encode

/-- The fields of a header, one after the other. -/
theorem layout (bytes : List UInt8) : slice bytes 0 8 ++ (slice bytes 8 2 ++ (slice bytes 10 4 ++
    (slice bytes 14 4 ++ (slice bytes 18 4 ++ (slice bytes 22 saltLen ++
    (slice bytes (22 + saltLen) noncePrefixLen ++
    (slice bytes (22 + saltLen + noncePrefixLen) 4 ++ bytes.drop headerLen))))))) = bytes := by
  have hafter (start length next : Nat) (h : start + length = next) :
      slice bytes start length ++ bytes.drop next = bytes.drop start := h ▸ slice_append_drop ..
  rw [hafter (22 + saltLen + noncePrefixLen) 4 headerLen rfl, hafter (22 + saltLen) _ _ rfl,
    hafter 22 _ _ rfl, hafter 18 4 22 rfl, hafter 14 4 18 rfl, hafter 10 4 14 rfl,
    hafter 8 2 10 rfl]
  exact hafter 0 8 8 rfl

/-- What reads as a header is one, and what comes after it. -/
theorem eq_encode {bytes rest : List UInt8} {header : Header}
    (h : read bytes = .ok (header, rest)) : bytes = header.encode ++ rest := by
  unfold read at h
  split at h
  · cases h
  case isFalse hlong =>
    split at h
    · cases h
    case isFalse hmagic =>
      split at h
      · cases h
      case isFalse hversion =>
        split at h
        · cases h
        case isFalse hkdf =>
          dsimp only at h
          split at h
          · cases h
          · obtain ⟨rfl, rfl⟩ := Prod.mk.inj (Except.ok.inj h)
            obtain ⟨hm, ht, hp⟩ : leWord (slice bytes 10 4) = kdfMCost ∧
                leWord (slice bytes 14 4) = kdfTCost ∧ leWord (slice bytes 18 4) = kdfPCost := by
              simpa using hkdf
            have hlength (start : Nat) (hle : start + 4 ≤ headerLen) :
                leBytes (leWord (slice bytes start 4)) = slice bytes start 4 :=
              leBytes_leWord (length_slice (Nat.le_trans hle (Nat.le_of_not_lt hlong)))
            rw [encode, ← not_not.mp hmagic, ← not_not.mp hversion, ← hm, ← ht, ← hp,
              hlength 10 (by decide), hlength 14 (by decide), hlength 18 (by decide)]
            simp only [List.append_assoc]
            exact (layout bytes).symm.trans (by rw [hlength _ (by decide)]; rfl)

end Header

end Backup

end RDownloader
