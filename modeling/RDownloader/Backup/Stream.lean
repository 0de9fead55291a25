import RDownloader.Core.Words
import RDownloader.Lib.SealedStream
import Mathlib.Data.Vector.Basic

/-!
# The encryption stream of a backup archive

A header, then the sealed chunks. Every chunk is sealed under the nonce prefix of the archive, its
counter and a flag that is set only on the last one, with the header as its associated data. The
writer keeps the encryptions it has made, so that what an ideal cipher decrypts can be said.
-/

namespace RDownloader

namespace Backup

/-- `MAGIC`. -/
def magic : List UInt8 := "RDBACKUP".toList.map fun char => .ofNat char.toNat

def containerVersion : UInt8 := 1

/-- Plaintext bytes per sealed chunk. -/
def chunkLen : Nat := 2 ^ 20

def kdfArgon2id : UInt8 := 1
def kdfMCost : Nat := 19456
def kdfTCost : Nat := 2
def kdfPCost : Nat := 1
def saltLen : Nat := 16
def tagLen : Nat := 16
def noncePrefixLen : Nat := 19
def headerLen : Nat := 8 + 1 + 1 + 12 + saltLen + noncePrefixLen + 4

/-- Largest chunk a reader accepts. -/
def maxChunkLen : Nat := 16 * 2 ^ 20

/-- `u32::to_le_bytes`. -/
def leBytes (n : Nat) : List UInt8 :=
  [.ofNat n, .ofNat (n / 2 ^ 8), .ofNat (n / 2 ^ 16), .ofNat (n / 2 ^ 24)]

/-- `u32::from_le_bytes`. -/
def leWord (bytes : List UInt8) : Nat := bytes.foldr (fun byte word => byte.toNat + 2 ^ 8 * word) 0

/-- The plaintext header of an archive. -/
@[ext] structure Header where
  salt : List.Vector UInt8 saltLen
  noncePrefix : List.Vector UInt8 noncePrefixLen
  chunkLen : Fin (2 ^ 32)
  deriving DecidableEq

namespace Header

/-- The nonce prefix is random. -/
def fresh (salt : List.Vector UInt8 saltLen) (noncePrefix : List.Vector UInt8 noncePrefixLen) : Header where
  salt := salt
  noncePrefix := noncePrefix
  chunkLen := ⟨Backup.chunkLen, by decide⟩

def encode (header : Header) : List UInt8 :=
  magic ++ ([containerVersion, kdfArgon2id] ++ (leBytes kdfMCost ++ (leBytes kdfTCost ++
    (leBytes kdfPCost ++ (header.salt.toList ++ (header.noncePrefix.toList ++
      leBytes header.chunkLen))))))

/-- The bytes of a slice. -/
def slice (bytes : List UInt8) (start length : Nat) : List UInt8 := (bytes.drop start).take length

theorem length_slice {bytes : List UInt8} {start length : Nat} (h : start + length ≤ bytes.length) :
    (slice bytes start length).length = length := by
  rw [slice, List.length_take, List.length_drop]
  omega

/-- A header and what comes after it. -/
def read (bytes : List UInt8) : Except String (Header × List UInt8) :=
  if hshort : bytes.length < headerLen then .error "failed to fill whole buffer"
  else if slice bytes 0 8 ≠ magic then .error "not an rDownloader backup"
  else if slice bytes 8 2 ≠ [containerVersion, kdfArgon2id] then
    .error "unsupported backup container version"
  else if (leWord (slice bytes 10 4), leWord (slice bytes 14 4), leWord (slice bytes 18 4)) ≠
      (kdfMCost, kdfTCost, kdfPCost) then
    .error "unsupported backup key derivation parameters"
  else
    have hlong := Nat.le_of_not_lt hshort
    let salt := ⟨slice bytes 22 saltLen, length_slice (Nat.le_trans (by decide) hlong)⟩
    let noncePrefix := ⟨slice bytes (22 + saltLen) noncePrefixLen,
      length_slice (Nat.le_trans (by decide) hlong)⟩
    let chunkLen := leWord (slice bytes (22 + saltLen + noncePrefixLen) 4)
    if h : chunkLen = 0 ∨ maxChunkLen < chunkLen then .error "unsupported backup chunk length"
    else
      .ok ({ salt, noncePrefix, chunkLen := ⟨chunkLen, by have : maxChunkLen < 2 ^ 32 := (by decide); omega⟩ },
        bytes.drop headerLen)

end Header

/-- A nonce, of 24 bytes. -/
abbrev XNonce := List UInt8

def nonce (noncePrefix : List.Vector UInt8 noncePrefixLen) (counter : Nat) (last : Bool) : XNonce :=
  noncePrefix.toList ++ ((leBytes counter).reverse ++ [if last then 1 else 0])

/-- The cipher under the key of the archive. -/
abbrev ChunkCipher := Cipher XNonce (List UInt8)

abbrev ChunkEncryption := Encryption XNonce (List UInt8)

/-- Seals everything written to it. -/
structure SealingWriter where
  inner : List UInt8
  header : Header
  counter : Nat := 0
  buffer : List UInt8 := []
  /-- The encryptions made so far. -/
  made : List ChunkEncryption := []

namespace SealingWriter

variable (cipher : ChunkCipher)

/-- Writes the header and starts the stream. -/
def new (header : Header) : SealingWriter := { inner := header.encode, header }

/-- `seal`. -/
def sealChunk (writer : SealingWriter) (length : Nat) (last : Bool) :
    SealingWriter × Except String Unit :=
  let encryption : ChunkEncryption :=
    ⟨nonce writer.header.noncePrefix writer.counter last, writer.header.encode, writer.buffer.take length⟩
  let writer := { writer with
    inner := writer.inner ++ encryption.sealed cipher
    made := writer.made ++ [encryption]
    buffer := writer.buffer.drop length }
  if writer.counter + 1 ≤ u32Max then ({ writer with counter := writer.counter + 1 }, .ok ())
  else (writer, .error "backup archive exceeds the chunk counter")

theorem buffer_sealChunk (writer : SealingWriter) (length : Nat) (last : Bool) :
    (writer.sealChunk cipher length last).1.buffer = writer.buffer.drop length := by
  unfold sealChunk
  dsimp only
  split <;> rfl

/-- The loop of `write`: strictly more than a chunk, so that the last one is left to `finish`. -/
def sealFull (writer : SealingWriter) : SealingWriter × Except String Unit :=
  if chunkLen < writer.buffer.length then
    match (writer.sealChunk cipher chunkLen false).2 with
    | .ok () => sealFull (writer.sealChunk cipher chunkLen false).1
    | .error error => ((writer.sealChunk cipher chunkLen false).1, .error error)
  else (writer, .ok ())
termination_by writer.buffer.length
decreasing_by
  rw [buffer_sealChunk, List.length_drop]
  exact Nat.sub_lt (Nat.lt_of_le_of_lt (Nat.zero_le _) ‹_›) (by decide)

def write (writer : SealingWriter) (data : List UInt8) : SealingWriter × Except String Unit :=
  sealFull cipher { writer with buffer := writer.buffer ++ data }

/-- The writes, up to one that fails. -/
def writes (writer : SealingWriter) : List (List UInt8) → SealingWriter × Except String Unit
  | [] => (writer, .ok ())
  | data :: rest =>
    match writer.write cipher data with
    | (writer, .ok ()) => writes writer rest
    | (writer, .error error) => (writer, .error error)

/-- Seals what is left as the final chunk. -/
def finish (writer : SealingWriter) : SealingWriter × Except String Unit :=
  writer.sealChunk cipher writer.buffer.length true

end SealingWriter

/-- What the reader says of a chunk that does not open. -/
def damaged : String := "the backup is damaged or the passphrase is wrong"

/-- Opens a sealed stream. -/
structure OpeningReader where
  inner : List UInt8
  header : Header
  counter : Nat := 0
  plain : List UInt8 := []
  position : Nat := 0
  finished : Bool := false

namespace OpeningReader

variable (cipher : ChunkCipher)

/-- Reads the header and checks that it was written for the salt of the key. -/
def new (salt : List.Vector UInt8 saltLen) (bytes : List UInt8) : Except String OpeningReader := do
  let (header, inner) ← Header.read bytes
  if header.salt ≠ salt then throw "the backup was sealed under another passphrase"
  return { inner, header }

def openNext (reader : OpeningReader) : Except String OpeningReader :=
  let sealedLen := reader.header.chunkLen + tagLen
  let sealed := reader.inner.take sealedLen
  let inner := reader.inner.drop sealedLen
  let last := inner.isEmpty
  if sealed.length < tagLen then .error damaged
  else
    match cipher.decrypt (nonce reader.header.noncePrefix reader.counter last) reader.header.encode
      sealed with
    | none => .error damaged
    | some plain =>
      if reader.counter + 1 ≤ u32Max then
        .ok { reader with
          inner, plain, position := 0, finished := last, counter := reader.counter + 1 }
      else .error damaged

variable {cipher} in
theorem openNext_shrinks {reader next : OpeningReader} (h : reader.openNext cipher = .ok next) :
    next.inner.length < reader.inner.length := by
  unfold openNext at h
  dsimp only at h
  split at h
  · cases h
  case isFalse htag =>
    split at h
    · cases h
    · split at h
      · cases h
        rw [List.length_take] at htag
        rw [List.length_drop]
        have : 0 < tagLen := by decide
        omega
      · cases h

/-- The loop of `read`: opens chunks until there is something to hand out, or nothing more. -/
def fill (reader : OpeningReader) : Except String OpeningReader :=
  if reader.position = reader.plain.length ∧ reader.finished = false then
    match _hnext : reader.openNext cipher with
    | .ok next => fill next
    | .error error => .error error
  else .ok reader
termination_by reader.inner.length
decreasing_by exact openNext_shrinks ‹_›

/-- What a read into a buffer of this length hands out. -/
def read (reader : OpeningReader) (length : Nat) : Except String (OpeningReader × List UInt8) := do
  let reader ← reader.fill cipher
  let count := min length (reader.plain.length - reader.position)
  return ({ reader with position := reader.position + count },
    (reader.plain.drop reader.position).take count)

/-- What reads of these lengths hand out, one after the other. -/
def reads (reader : OpeningReader) : List Nat → Except String (OpeningReader × List (List UInt8))
  | [] => .ok (reader, [])
  | length :: lengths => do
    let (reader, piece) ← reader.read cipher length
    let (reader, pieces) ← reads reader lengths
    return (reader, piece :: pieces)

end OpeningReader

end Backup

end RDownloader
