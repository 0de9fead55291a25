import Mathlib.Algebra.GroupWithZero.Nat
import RDownloader.Core.Transform
import RDownloader.Lib.BlockStream
import Std.Data.TreeMap

/-!
# The chunk MACs of a transformed stream (`rd-http/src/transform.rs`)

A `MacWalker` is fed plaintext in whatever pieces the network delivers and returns the CBC-MAC of
every provider chunk it completes. The block cipher under the key is a parameter of the transform;
nothing here depends on which one it is.
-/

namespace RDownloader

/-- Bytes of one block. -/
def blockBytes : Nat := 16

abbrev Block := Vector UInt8 16

namespace Block

def zero : Block := Vector.replicate 16 0

/-- The first sixteen of `bytes`, filled up with zeros. -/
def ofBytes (bytes : List UInt8) : Block := Vector.ofFn fun i => bytes.getD i 0

def xor (a b : Block) : Block := Vector.zipWith (· ^^^ ·) a b

end Block

/-- What a previous attempt left behind. -/
structure TransformCheckpoint where
  fingerprint : Option String := none
  macs : List (Nat × Block) := []

/-- A validated description together with the cipher under its key. -/
structure StreamTransform where
  description : ContentTransform
  fingerprint : String
  encrypt : Block → Block
  valid : description.validate = .ok ()

/-- `collect` into a map: of two entries with one key the later one stays. -/
def insertAll (macs : Std.TreeMap Nat Block) (entries : List (Nat × Block)) :
    Std.TreeMap Nat Block :=
  entries.foldl (fun macs entry => macs.insert entry.1 entry.2) macs

namespace StreamTransform

/-- Refuses anything this build cannot compute. The fingerprint of a description and the cipher
under a key come from outside. -/
def new (fingerprintOf : ContentTransform → String) (aes : Block → Block → Block)
    (description : ContentTransform) (key : List UInt8) : Except Failure StreamTransform :=
  match valid : description.validate with
  | .error failure => .error failure
  | .ok () =>
    if description.cipher.keyReference.isNone then
      .error (.coded .permanent codeKeyMissing
        "this transform has no vault reference for its key")
    else if key.length ≠ blockBytes then
      .error (.coded .permanent codeParametersInvalid
        s!"aes-128 needs a 16-byte key, got {key.length}")
    else
      .ok {
        description, valid
        fingerprint := fingerprintOf description
        encrypt := aes (.ofBytes key) }

def integrity (transform : StreamTransform) : Option IntegritySpec :=
  transform.description.integrity

/-- The recorded chunk MACs an attempt may carry over: none of another description's. -/
def adopt (transform : StreamTransform) (checkpoint : TransformCheckpoint) :
    Std.TreeMap Nat Block :=
  if checkpoint.fingerprint ≠ some transform.fingerprint then ∅ else
  match transform.integrity with
  | none => ∅
  | some integrity =>
    insertAll ∅ (checkpoint.macs.filter (·.1 < integrity.chunkCount))

end StreamTransform

/-! ## AES-CTR -/

/-- A number as a big-endian block. -/
def Block.ofNat (n : Nat) : Block := Vector.ofFn fun i => UInt8.ofNat (n / 256 ^ (15 - i.val))

namespace StreamTransform

/-- `apply`: turns the bytes at `position` into plaintext. The block index wraps within the low
half of the counter block; from there on the whole block counts. -/
def apply (transform : StreamTransform) (position : Nat) (buffer : List UInt8) : List UInt8 :=
  let cipher := transform.description.cipher
  let block := (cipher.firstBlock + position / blockBytes) % 2 ^ 64
  let iv := cipher.nonce.foldl (fun value byte => 256 * value + byte.toNat) 0 * 2 ^ 64 + block
  let within := position % blockBytes
  buffer.mapIdx fun k byte =>
    let counter := (iv + (within + k) / blockBytes) % 2 ^ 128
    byte ^^^ (transform.encrypt (.ofNat counter)).toList.getD ((within + k) % blockBytes) 0

@[simp] theorem length_apply (transform : StreamTransform) :
    (transform.apply position buffer).length = buffer.length :=
  List.length_mapIdx ..

end StreamTransform

/-! ## CBC-MAC -/

/-- One step of the chain. A block shorter than sixteen bytes is filled up with zeros. -/
def mix (encrypt : Block → Block) (state : Block) (block : List UInt8) : Block :=
  encrypt (state.xor (.ofBytes block))

/-- The blocks `data` is cut into, `n` of them. -/
def cbcMacFrom (encrypt : Block → Block) : Nat → Block → List UInt8 → Block
  | 0, state, _ => state
  | n + 1, state, data =>
    cbcMacFrom encrypt n (mix encrypt state (data.take blockBytes)) (data.drop blockBytes)

/-- `cbc_mac`: one CBC-MAC over `data`, zero-padded to the block size. -/
def cbcMac (encrypt : Block → Block) (iv : Block) (data : List UInt8) : Block :=
  cbcMacFrom encrypt ((data.length + 15) / blockBytes) iv data

namespace IntegritySpec

def initialState (integrity : IntegritySpec) : Block :=
  if integrity.iv.length = blockBytes then .ofBytes integrity.iv else .zero

/-- The MAC of provider chunk `index` of a plaintext. -/
def referenceMac (integrity : IntegritySpec) (encrypt : Block → Block) (plaintext : List UInt8)
    (index : Nat) : Block :=
  cbcMac encrypt integrity.initialState
    (Cuts.slice plaintext (Cuts.start integrity.boundaries index)
      (Cuts.start integrity.boundaries (index + 1)))

end IntegritySpec

/-! ## The walker -/

/-- The CBC-MAC of one provider chunk, accumulated as the bytes are written. -/
structure MacWalker where
  integrity : IntegritySpec
  encrypt : Block → Block
  index : Nat
  stop : Nat
  state : Block
  pending : List UInt8
  position : Nat
  exhausted : Bool

namespace MacWalker

def new (integrity : IntegritySpec) (encrypt : Block → Block) (position : Nat) : MacWalker :=
  let index := (integrity.chunkOf position).getD 0
  { integrity, encrypt, index, position
    stop := ((integrity.chunkRange index).map (·.2)).getD (2 ^ 64 - 1)
    state := integrity.initialState
    pending := []
    exhausted := (integrity.chunkOf position).isNone }

/-- `absorb`: completes the pending block first, mixes whole blocks, keeps the rest. -/
def absorb (walker : MacWalker) (bytes : List UInt8) : MacWalker :=
  let (walker, bytes) :=
    if walker.pending.length > 0 then
      let take := min (blockBytes - walker.pending.length) bytes.length
      let pending := walker.pending ++ bytes.take take
      if pending.length = blockBytes then
        ({ walker with state := mix walker.encrypt walker.state pending, pending := [] },
          bytes.drop take)
      else ({ walker with pending }, bytes.drop take)
    else (walker, bytes)
  let (state, rest) := BlockStream.blocks blockBytes (mix walker.encrypt) walker.state bytes
  { walker with state, pending := if rest = [] then walker.pending else rest }

/-- `close`: pads the tail with zeros and returns the chunk's MAC. -/
def close (walker : MacWalker) : Block × MacWalker :=
  if walker.pending.length > 0 then
    let state := mix walker.encrypt walker.state walker.pending
    (state, { walker with state, pending := [] })
  else (walker.state, walker)

def advance (walker : MacWalker) : MacWalker :=
  match walker.integrity.chunkRange (walker.index + 1) with
  | some (_, stop) =>
    { walker with index := walker.index + 1, stop, state := walker.integrity.initialState }
  | none => { walker with index := walker.index + 1, exhausted := true }

/-- The loop of `feed`. Every pass takes at least one byte, so `fuel` is the bytes left. -/
def feedLoop : Nat → MacWalker → List UInt8 → List (Nat × Block) →
    List (Nat × Block) × MacWalker
  | 0, walker, _, finished => (finished, walker)
  | fuel + 1, walker, rest, finished =>
    if rest = [] ∨ walker.exhausted then (finished, walker) else
    let take := min (walker.stop - walker.position) rest.length
    let walker := walker.absorb (rest.take take)
    let walker := { walker with position := walker.position + take }
    let rest := rest.drop take
    if walker.position = walker.stop then
      let index := walker.index
      let (mac, walker) := walker.close
      feedLoop fuel walker.advance rest (finished ++ [(index, mac)])
    else feedLoop fuel walker rest finished

/-- `feed`: takes plaintext written at `position`, returning every chunk MAC it completed. -/
def feed (walker : MacWalker) (position : Nat) (plaintext : List UInt8) :
    Except Failure (List (Nat × Block) × MacWalker) :=
  if walker.exhausted ∨ plaintext = [] then .ok ([], walker)
  else if position ≠ walker.position then
    .error (.coded (.transient none) codeCheckpointMismatch
      s!"this stream must be accounted for in order: expected byte {walker.position}, got {position}")
  else .ok (feedLoop plaintext.length walker plaintext [])

/-- A walker fed one buffer after another, the first at `position`. -/
def feedAll (walker : MacWalker) (position : Nat) :
    List (List UInt8) → Except Failure (List (Nat × Block) × MacWalker)
  | [] => .ok ([], walker)
  | buffer :: buffers => do
    let (finished, walker) ← walker.feed position buffer
    let (rest, walker) ← walker.feedAll (position + buffer.length) buffers
    return (finished ++ rest, walker)

end MacWalker

namespace StreamTransform

/-- A MAC accumulator for the provider chunk `position` falls in. -/
def macWalker (transform : StreamTransform) (position : Nat) : Option MacWalker :=
  transform.integrity.map fun integrity => .new integrity transform.encrypt position

end StreamTransform

end RDownloader
