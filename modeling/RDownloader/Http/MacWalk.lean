import RDownloader.Http.Transform

/-!
# What a walker computes

Fed the plaintext from a boundary on, in any split into buffers, a `MacWalker` returns the
reference MAC of every provider chunk that ends on the way, each once and in order
(`MacWalker.feedAll_new`). The invariant `MacWalker.At` says what the accumulator holds at an
offset.
-/

namespace RDownloader

open BlockStream Cuts

theorem blockBytes_pos : 0 < blockBytes := by decide

/-- The whole-data MAC and the block-by-block one agree. -/
theorem cbcMac_eq_finish (encrypt : Block → Block) (iv : Block) (data : List UInt8) :
    cbcMac encrypt iv data =
      finish (mix encrypt) (blocks blockBytes (mix encrypt) iv data) := by
  induction hn : data.length using Nat.strongRecOn generalizing iv data with
  | ind n ih =>
    by_cases hfull : blockBytes ≤ data.length
    · rw [blocks_step iv blockBytes_pos hfull, ← ih _ (by simp [blockBytes] at *; omega) _ _ rfl]
      have hcount : (data.length + 15) / blockBytes =
          ((data.drop blockBytes).length + 15) / blockBytes + 1 := by
        simp only [List.length_drop, blockBytes] at *
        omega
      rw [cbcMac, hcount, cbcMacFrom]; rfl
    · rw [blocks_short iv (Nat.lt_of_not_ge hfull), cbcMac, finish]
      simp only [blockBytes] at hfull ⊢
      cases data with
      | nil => rfl
      | cons byte data =>
        have hcount : ((byte :: data).length + 15) / 16 = 1 := by
          simp only [List.length_cons] at *; omega
        simp only [hcount, cbcMacFrom, blockBytes, reduceCtorEq, if_false]
        rw [List.take_of_length_le (by omega)]

namespace MacWalker

/-- Absorbing bytes is mixing the blocks of the pending bytes and them. -/
theorem absorb_eq (walker : MacWalker) (bytes : List UInt8)
    (hpending : walker.pending.length < blockBytes) :
    walker.absorb bytes =
      { walker with
        state := (blocks blockBytes (mix walker.encrypt) walker.state (walker.pending ++ bytes)).1
        pending :=
          (blocks blockBytes (mix walker.encrypt) walker.state (walker.pending ++ bytes)).2 } := by
  obtain ⟨integrity, encrypt, index, stop, state, pending, position, exhausted⟩ := walker
  simp only at hpending
  simp only [absorb]
  cases pending with
  | nil =>
    simp only [List.length_nil, Nat.lt_irrefl, gt_iff_lt, if_false, List.nil_append]
    split
    · next h => simp [h]
    · rfl
  | cons byte pending =>
    generalize hp : byte :: pending = tail at *
    have hne : tail ≠ [] := by rw [← hp]; simp
    have hpos : tail.length > 0 := List.length_pos_of_ne_nil hne
    simp only [hpos, if_true]
    by_cases hfull : blockBytes ≤ (tail ++ bytes).length
    · -- the pending bytes are completed to a block
      rw [List.length_append] at hfull
      have htake : min (blockBytes - tail.length) bytes.length = blockBytes - tail.length := by
        omega
      have hlen : (tail ++ bytes.take (blockBytes - tail.length)).length = blockBytes := by
        rw [List.length_append, List.length_take, htake]; omega
      have hblocks := blocks_append (mix encrypt) blockBytes_pos state
        (tail ++ bytes.take (blockBytes - tail.length)) (bytes.drop (blockBytes - tail.length))
      rw [blocks_full state blockBytes_pos hlen, List.append_assoc, List.take_append_drop,
        List.nil_append] at hblocks
      simp only [htake, hlen, if_true, hblocks]
      split
      · next h => rw [h]
      · rfl
    · -- all bytes fit beside the pending ones
      rw [List.length_append] at hfull
      have htake : min (blockBytes - tail.length) bytes.length = bytes.length := by omega
      have hshort : (tail ++ bytes).length < blockBytes := by rw [List.length_append]; omega
      have hnil : ([] : List UInt8).length < blockBytes := blockBytes_pos
      simp only [htake, List.take_length, Nat.ne_of_lt hshort, if_false, List.drop_length,
        blocks_short state hnil, blocks_short state hshort, if_true]

theorem close_eq (walker : MacWalker) :
    walker.close.1 = finish (mix walker.encrypt) (walker.state, walker.pending) := by
  unfold close finish
  cases walker.pending <;> rfl

theorem close_snd (walker : MacWalker) :
    walker.close.2 = { walker with state := walker.close.1, pending := [] } := by
  obtain ⟨integrity, encrypt, index, stop, state, pending, position, exhausted⟩ := walker
  cases pending <;> rfl

/-- What the walker holds once every byte below `offset` is accounted for. -/
structure At (walker : MacWalker) (integrity : IntegritySpec) (encrypt : Block → Block)
    (plaintext : List UInt8) (offset : Nat) : Prop where
  integrity_eq : walker.integrity = integrity
  encrypt_eq : walker.encrypt = encrypt
  exhausted_iff : walker.exhausted = true ↔ integrity.chunkCount ≤ integrity.passed offset
  live : walker.exhausted = false → walker.position = offset ∧
    walker.index = integrity.passed offset ∧
    walker.stop = start integrity.boundaries (integrity.passed offset + 1) ∧
    (walker.state, walker.pending) = blocks blockBytes (mix encrypt) integrity.initialState
      (slice plaintext (start integrity.boundaries (integrity.passed offset)) offset)

end MacWalker

/-- The reference MACs of the provider chunks that end above `p` and at or below `q`. -/
def IntegritySpec.macsBetween (integrity : IntegritySpec) (encrypt : Block → Block)
    (plaintext : List UInt8) (p q : Nat) : List (Nat × Block) :=
  (List.range' (integrity.passed p) (integrity.passed q - integrity.passed p)).map fun index =>
    (index, integrity.referenceMac encrypt plaintext index)

namespace IntegritySpec

variable {integrity : IntegritySpec} {encrypt : Block → Block} {plaintext : List UInt8}

theorem macsBetween_append (hpq : p ≤ q) (hqr : q ≤ r) :
    integrity.macsBetween encrypt plaintext p q ++ integrity.macsBetween encrypt plaintext q r =
      integrity.macsBetween encrypt plaintext p r := by
  have hpq' : integrity.passed p ≤ integrity.passed q := passed_mono hpq
  have hqr' : integrity.passed q ≤ integrity.passed r := passed_mono hqr
  obtain ⟨k, hk⟩ := Nat.exists_eq_add_of_le hpq'
  obtain ⟨l, hl⟩ := Nat.exists_eq_add_of_le hqr'
  simp only [macsBetween, ← List.map_append]
  rw [hl, hk, Nat.add_sub_cancel_left, Nat.add_sub_cancel_left, List.range'_append_1,
    Nat.add_assoc, Nat.add_sub_cancel_left]

theorem macsBetween_of_passed_eq (h : integrity.passed q = integrity.passed p) :
    integrity.macsBetween encrypt plaintext p q = [] := by
  simp [macsBetween, h]

theorem macsBetween_of_passed_succ (h : integrity.passed q = integrity.passed p + 1) :
    integrity.macsBetween encrypt plaintext p q =
      [(integrity.passed p, integrity.referenceMac encrypt plaintext (integrity.passed p))] := by
  simp [macsBetween, h, List.range'_one]

end IntegritySpec

namespace MacWalker

variable {integrity : IntegritySpec} {encrypt : Block → Block} {plaintext : List UInt8}
  {walker : MacWalker}

/-- A walker started on a boundary holds nothing yet. -/
theorem At.new (hwf : integrity.WellFormed) (hb : integrity.isBoundary offset) :
    (MacWalker.new integrity encrypt offset).At integrity encrypt plaintext offset := by
  have hstart := hwf.isBoundary_iff.mp hb
  rcases Nat.lt_or_ge (integrity.passed offset) integrity.chunkCount with hlt | hge
  · have hchunk := hwf.chunkOf_of_lt hlt
    refine ⟨rfl, rfl, ?_, fun _ => ⟨rfl, ?_, ?_, ?_⟩⟩
    · simp [MacWalker.new, hchunk]; omega
    · simp [MacWalker.new, hchunk]
    · simp only [MacWalker.new, hchunk, Option.getD_some,
        IntegritySpec.chunkRange_of_lt hlt, Option.map_some]
      exact (start_succ hlt).symm
    · rw [hstart, slice_self, blocks_short _ blockBytes_pos]; rfl
  · have hchunk := hwf.chunkOf_of_le hge
    refine ⟨rfl, rfl, ?_, fun h => ?_⟩
    · simp [MacWalker.new, hchunk, hge]
    · simp [MacWalker.new, hchunk] at h

/-- Absorbing the bytes from `p` to `m` within one provider chunk. -/
theorem At.absorb_eq (hat : walker.At integrity encrypt plaintext p) (hwf : integrity.WellFormed)
    (hlive : walker.exhausted = false) (hpm : p ≤ m) :
    let chained := blocks blockBytes (mix encrypt) integrity.initialState
      (slice plaintext (start integrity.boundaries (integrity.passed p)) m)
    walker.absorb (slice plaintext p m) =
      { walker with state := chained.1, pending := chained.2 } := by
  obtain ⟨hposition, hindex, hstop, hstate⟩ := hat.live hlive
  have hpending := blocks_tail_length (mix encrypt) blockBytes_pos integrity.initialState
    (slice plaintext (start integrity.boundaries (integrity.passed p)) p)
  rw [← hstate] at hpending
  have happend := blocks_append (mix encrypt) blockBytes_pos integrity.initialState
    (slice plaintext (start integrity.boundaries (integrity.passed p)) p) (slice plaintext p m)
  rw [← hstate, slice_append (start_passed_le hwf.ascending p) hpm] at happend
  rw [MacWalker.absorb_eq _ _ hpending, hat.encrypt_eq, happend]

/-- Bytes that end before the provider chunk does. -/
theorem At.inside (hat : walker.At integrity encrypt plaintext p) (hwf : integrity.WellFormed)
    (hlive : walker.exhausted = false) (hpm : p ≤ m) (hm : m < walker.stop) :
    let chained := blocks blockBytes (mix encrypt) integrity.initialState
      (slice plaintext (start integrity.boundaries (integrity.passed p)) m)
    integrity.passed m = integrity.passed p ∧
      { walker with state := chained.1, pending := chained.2, position := m }.At integrity encrypt
        plaintext m := by
  obtain ⟨hposition, hindex, hstop, hstate⟩ := hat.live hlive
  have hlt : integrity.passed p < integrity.chunkCount := by
    have := hat.exhausted_iff.not.mp (by simp [hlive])
    omega
  have hpassed : integrity.passed m = integrity.passed p := by
    refine passed_eq hwf.ascending ?_ (fun hi => ?_) (Nat.le_of_lt hlt)
    · exact Nat.le_trans (start_passed_le hwf.ascending p) hpm
    · rw [hstop, start_succ hlt] at hm
      exact hm
  refine ⟨hpassed, hat.integrity_eq, hat.encrypt_eq, ?_, fun _ => ⟨rfl, ?_, ?_, ?_⟩⟩
  · rw [hpassed]; exact hat.exhausted_iff
  · rw [hpassed]; exact hindex
  · rw [hpassed]; exact hstop
  · rw [hpassed]

/-- Closing a chunk and going on to the next one. -/
theorem At.close_advance (hat : walker.At integrity encrypt plaintext p)
    (hwf : integrity.WellFormed) (hlive : walker.exhausted = false) :
    let chained := blocks blockBytes (mix encrypt) integrity.initialState
      (slice plaintext (start integrity.boundaries (integrity.passed p)) walker.stop)
    let full := { walker with
      state := chained.1, pending := chained.2, position := walker.stop }
    full.close.1 = integrity.referenceMac encrypt plaintext (integrity.passed p) ∧
      full.close.2.advance.At integrity encrypt plaintext walker.stop ∧
      integrity.passed walker.stop = integrity.passed p + 1 := by
  obtain ⟨hposition, hindex, hstop, hstate⟩ := hat.live hlive
  have hlt : integrity.passed p < integrity.chunkCount := by
    have := hat.exhausted_iff.not.mp (by simp [hlive])
    omega
  have hpassed : integrity.passed walker.stop = integrity.passed p + 1 := by
    rw [hstop]; exact passed_start hwf.ascending hwf.positive hlt
  refine ⟨?_, ?_, hpassed⟩
  · rw [close_eq, IntegritySpec.referenceMac, cbcMac_eq_finish, hat.encrypt_eq, hstop]
  · rw [close_snd]
    rcases Nat.lt_or_ge (integrity.passed p + 1) integrity.chunkCount with hnext | hend
    · have hrange := IntegritySpec.chunkRange_of_lt hnext
      refine ⟨?_, ?_, ?_, fun _ => ⟨?_, ?_, ?_, ?_⟩⟩ <;>
        simp only [advance, hat.integrity_eq, hindex, hrange, hat.encrypt_eq, hlive, hpassed,
          Bool.false_eq_true, false_iff, Nat.not_le]
      · exact hnext
      · exact (start_succ hnext).symm
      · have hstart : start integrity.boundaries (integrity.passed p + 1) = walker.stop := hstop.symm
        rw [hstart, slice_self, blocks_short _ blockBytes_pos]
    · have hrange := IntegritySpec.chunkRange_of_le hend
      refine ⟨?_, ?_, ?_, fun h => ?_⟩ <;>
        simp only [advance, hat.integrity_eq, hindex, hrange, hat.encrypt_eq, hpassed, true_iff]
      · exact hend
      · simp [advance, hat.integrity_eq, hindex, hrange] at h

theorem feedLoop_at (hwf : integrity.WellFormed) (fuel : Nat) (finished : List (Nat × Block))
    (hat : walker.At integrity encrypt plaintext p) (hpq : p ≤ q) (hq : q ≤ plaintext.length)
    (hfuel : q - p ≤ fuel) :
    ∃ walker', feedLoop fuel walker (slice plaintext p q) finished =
        (finished ++ integrity.macsBetween encrypt plaintext p q, walker') ∧
      walker'.At integrity encrypt plaintext q := by
  induction fuel generalizing walker p finished with
  | zero =>
    obtain rfl : p = q := by omega
    exact ⟨walker, by rw [IntegritySpec.macsBetween_of_passed_eq rfl, List.append_nil]; rfl, hat⟩
  | succ fuel ih =>
    cases hex : walker.exhausted with
    | true =>
      have hge := hat.exhausted_iff.mp hex
      have hmono : integrity.passed p ≤ integrity.passed q := passed_mono hpq
      have hle := integrity.passed_le_chunkCount q
      refine ⟨walker, ?_, ⟨hat.integrity_eq, hat.encrypt_eq, ?_, ?_⟩⟩
      · rw [IntegritySpec.macsBetween_of_passed_eq (by omega), List.append_nil]
        simp [feedLoop, hex]
      · simp only [hex, true_iff]; omega
      · simp [hex]
    | false =>
      rcases Nat.eq_or_lt_of_le hpq with rfl | hlt
      · refine ⟨walker, ?_, hat⟩
        rw [IntegritySpec.macsBetween_of_passed_eq rfl, List.append_nil, slice_self]
        simp [feedLoop]
      obtain ⟨hposition, hindex, hstop, hstate⟩ := hat.live hex
      have hchunk : integrity.passed p < integrity.chunkCount := by
        have := hat.exhausted_iff.not.mp (by simp [hex])
        omega
      have hpstop : p < walker.stop := by
        rw [hstop, start_succ hchunk]
        exact lt_end_of_passed hwf.ascending hchunk
      -- One pass goes as far as the chunk's end or the buffer's end, whichever comes first.
      obtain ⟨m, hm⟩ : ∃ m, m = min walker.stop q := ⟨_, rfl⟩
      have hlen := length_slice hq (a := p)
      have htake : min (walker.stop - p) (slice plaintext p q).length = m - p := by
        rw [hlen]; omega
      have hne : slice plaintext p q ≠ [] := by
        rw [← List.length_pos_iff]; omega
      have hpm : p + (m - p) = m := by omega
      have hbody : feedLoop (fuel + 1) walker (slice plaintext p q) finished =
          let full := { walker.absorb (slice plaintext p m) with position := m }
          if m = walker.stop then
            feedLoop fuel full.close.2.advance (slice plaintext m q)
              (finished ++ [(integrity.passed p, full.close.1)])
          else feedLoop fuel full (slice plaintext m q) finished := by
        rw [feedLoop]
        simp only [hne, hex, Bool.false_eq_true, or_self, if_false, hposition, htake,
          drop_slice, hpm, take_slice (show p + (m - p) ≤ q by omega),
          hat.absorb_eq hwf hex (by omega : p ≤ m), hindex]
      rw [hbody, hat.absorb_eq hwf hex (by omega)]
      split
      · next hend =>
        obtain ⟨hmac, hat', hpassed⟩ := hat.close_advance hwf hex
        subst hend
        obtain ⟨walker', hrest, hat''⟩ := ih (finished ++ [_]) hat' (by omega) (by omega)
        refine ⟨walker', ?_, hat''⟩
        dsimp only at hmac hrest ⊢
        rw [hmac, hrest, ← IntegritySpec.macsBetween_append (by omega : p ≤ walker.stop) (by omega),
          IntegritySpec.macsBetween_of_passed_succ hpassed, List.append_assoc]
      · next hend =>
        obtain rfl : m = q := by omega
        obtain ⟨hpassed, hat'⟩ := hat.inside hwf hex hpq (by omega)
        obtain ⟨walker', hrest, hat''⟩ := ih finished hat' (Nat.le_refl m) (by omega)
        refine ⟨walker', ?_, hat''⟩
        dsimp only at hrest ⊢
        rw [slice_self] at hrest ⊢
        rw [hrest, IntegritySpec.macsBetween_of_passed_eq rfl,
          IntegritySpec.macsBetween_of_passed_eq hpassed]

/-- Feeding one buffer, at the position the walker has reached. -/
theorem feed_at (hwf : integrity.WellFormed) (hat : walker.At integrity encrypt plaintext p)
    (hpq : p ≤ q) (hq : q ≤ plaintext.length) :
    ∃ walker', walker.feed p (slice plaintext p q) =
        .ok (integrity.macsBetween encrypt plaintext p q, walker') ∧
      walker'.At integrity encrypt plaintext q := by
  have hlen : (slice plaintext p q).length = q - p := length_slice hq
  obtain ⟨walker', hloop, hat'⟩ :=
    feedLoop_at hwf (slice plaintext p q).length [] hat hpq hq (by omega)
  unfold feed
  split
  · next hskip =>
    obtain hnil : feedLoop (slice plaintext p q).length walker (slice plaintext p q) [] =
        ([], walker) := by
      cases hfuel : (slice plaintext p q).length with
      | zero => rfl
      | succ fuel => rw [feedLoop, if_pos hskip.symm]
    rw [hnil, List.nil_append] at hloop
    obtain ⟨hmacs, rfl⟩ := Prod.mk.inj hloop
    exact ⟨_, by rw [← hmacs], hat'⟩
  · next hskip =>
    have hlive : walker.exhausted = false := by simpa using (not_or.mp hskip).1
    rw [if_neg (by simp [(hat.live hlive).1]), hloop]
    exact ⟨walker', rfl, hat'⟩

/-- Feeding buffers one after another, whatever the split. -/
theorem feedAll_at (hwf : integrity.WellFormed) (hat : walker.At integrity encrypt plaintext p)
    (hbuffers : buffers.flatten = slice plaintext p q) (hpq : p ≤ q) (hq : q ≤ plaintext.length) :
    ∃ walker', walker.feedAll p buffers =
        .ok (integrity.macsBetween encrypt plaintext p q, walker') ∧
      walker'.At integrity encrypt plaintext q := by
  induction buffers generalizing walker p with
  | nil =>
    have hlen := length_slice hq (a := p)
    rw [← hbuffers, List.flatten_nil, List.length_nil] at hlen
    obtain rfl : p = q := by omega
    exact ⟨walker, by rw [IntegritySpec.macsBetween_of_passed_eq rfl]; rfl, hat⟩
  | cons buffer buffers ih =>
    rw [List.flatten_cons] at hbuffers
    obtain ⟨m, hm⟩ : ∃ m, m = p + buffer.length := ⟨_, rfl⟩
    have hlen := congrArg List.length hbuffers
    rw [List.length_append, length_slice hq] at hlen
    have hhead : buffer = slice plaintext p m := by
      rw [hm, ← take_slice (show p + buffer.length ≤ q by omega), ← hbuffers, List.take_left]
    have htail : buffers.flatten = slice plaintext m q := by
      rw [hm, ← drop_slice, ← hbuffers, List.drop_left]
    obtain ⟨walker₁, hfeed, hat₁⟩ := feed_at hwf hat (show p ≤ m by omega) (by omega)
    obtain ⟨walker₂, hrest, hat₂⟩ := ih hat₁ htail (by omega)
    refine ⟨walker₂, ?_, hat₂⟩
    rw [feedAll, ← hm, hhead, hfeed]
    simp only [bind, Except.bind, pure, Except.pure, hrest]
    rw [IntegritySpec.macsBetween_append (show p ≤ m by omega) (by omega)]

/-- A walker started on a boundary and fed everything up to `q` returns the reference MAC of each
provider chunk that ends on the way, whatever the split into buffers. -/
theorem feedAll_new (hwf : integrity.WellFormed) (encrypt : Block → Block) (hb : integrity.isBoundary p)
    (hbuffers : buffers.flatten = slice plaintext p q) (hpq : p ≤ q) (hq : q ≤ plaintext.length) :
    ∃ walker', (MacWalker.new integrity encrypt p).feedAll p buffers =
      .ok (integrity.macsBetween encrypt plaintext p q, walker') := by
  obtain ⟨walker', hfeed, -⟩ := feedAll_at hwf (At.new hwf hb) hbuffers hpq hq
  exact ⟨walker', hfeed⟩

/-! ## In place -/

/-- `feed` as it changes the walker in place. -/
def feedMut (walker : MacWalker) (position : Nat) (plaintext : List UInt8) :
    Except Failure (List (Nat × Block)) × MacWalker :=
  if walker.exhausted ∨ plaintext = [] then (.ok [], walker)
  else if position ≠ walker.position then
    (.error (.coded (.transient none) codeCheckpointMismatch
      s!"this stream must be accounted for in order: expected byte {walker.position}, got {position}"),
      walker)
  else
    let (finished, walker) := feedLoop plaintext.length walker plaintext []
    (.ok finished, walker)

theorem feed_eq_feedMut (walker : MacWalker) (position : Nat) (plaintext : List UInt8) :
    walker.feed position plaintext =
      (walker.feedMut position plaintext).1.map fun finished =>
        (finished, (walker.feedMut position plaintext).2) := by
  unfold feed feedMut
  split
  · rfl
  split
  · rfl
  · rfl

/-- A buffer is refused and nothing has changed. -/
def Refuses (walker : MacWalker) (position : Nat) (buffer : List UInt8) : Prop :=
  ∃ failure, walker.feedMut position buffer = (.error failure, walker)

theorem refuses {walker : MacWalker} {buffer : List UInt8} (hlive : walker.exhausted = false)
    (hbuffer : buffer ≠ []) {position : Nat} (hposition : position ≠ walker.position) :
    walker.Refuses position buffer := by
  unfold Refuses feedMut
  rw [hlive, if_neg (not_or.mpr ⟨Bool.false_ne_true, hbuffer⟩), if_pos hposition]
  exact ⟨_, rfl⟩

end MacWalker
end RDownloader
