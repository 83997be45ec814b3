import RandomX.Argon2.Block
import RandomX.Blake2b
import RandomX.Error
import RandomX.Parameters

/-!
# Memory-hard fill

Argon2d in one lane with three passes. The memory itself is the result: nothing is hashed out of it, and the length of
the tag that goes into the first digest is zero.
-/
namespace RandomX.Argon2

/-! ## Blocks from bytes -/

def Block.ofBytes (bytes : ByteArray) : Block :=
  .ofFn fun i => word64At bytes (8 * i)

/-! ## First blocks -/

/-- The four bytes of a length or a parameter. -/
def number (n : Nat) : ByteArray :=
  pushWord32 .empty n.toUInt32

/-- A string of bytes behind its length. -/
def prefixed (bytes : ByteArray) : ByteArray :=
  number bytes.size ++ bytes

def salt : ByteArray :=
  ⟨#[0x52, 0x61, 0x6E, 0x64, 0x6F, 0x6D, 0x58, 0x03]⟩

/-- The digest of the parameters and the key: lanes, tag length, blocks, passes, version 1.3, variant d, then key, salt,
no secret and no associated data. -/
def firstDigest (key : ByteArray) : Vector UInt8 64 :=
  Blake2b.hash512 (number fillLanes ++ number 0 ++ number cacheBlocks ++ number fillPasses ++ number 0x13 ++ number 0
    ++ prefixed key ++ prefixed salt ++ prefixed .empty ++ prefixed .empty)

/-- Appends the first halves of `n` chained digests, then the whole of one more. -/
def chainDigests : (n : Nat) → (digest : Vector UInt8 64) → (out : ByteArray) → ByteArray
  | 0, digest, out => out ++ bytesOfVector digest
  | n + 1, digest, out =>
    let bytes := bytesOfVector digest
    chainDigests n (Blake2b.hash512 bytes) (out ++ bytes.extract 0 32)

/-- The digest of a block's length. -/
def longDigest (bytes : ByteArray) : ByteArray :=
  chainDigests (blockBytes / 32 - 2) (Blake2b.hash512 (number blockBytes ++ bytes)) .empty

/-- One of the two first blocks of the lane. -/
def firstBlock (key : ByteArray) (i : Nat) : Block :=
  .ofBytes (longDigest (bytesOfVector (firstDigest key) ++ number i ++ number 0))

/-! ## Passes -/

/-- Blocks of a quarter of the memory. -/
def segmentBlocks : Nat :=
  cacheBlocks / 4

/-- The block that is mixed in at position `i` of a pass, chosen by the first word of the block before. The choice
prefers recent blocks. In the first pass all earlier blocks can be chosen, later on those of the last three quarters
and of the current one. -/
def referenceIndex (pass i : Nat) (random : UInt64) : Nat :=
  let slice := i / segmentBlocks
  let area := if pass = 0 then i - 1 else cacheBlocks - segmentBlocks + i % segmentBlocks - 1
  let start := if pass = 0 ∨ slice = 3 then 0 else (slice + 1) * segmentBlocks
  let low := random &&& 0xFFFFFFFF
  let distance := (area.toUInt64 * ((low * low) >>> 32)) >>> 32
  (start + (area - 1 - distance.toNat)) % cacheBlocks

/-- The block at an index, zero past the end. -/
@[inline] def blockAt (memory : Array Block) (i : Nat) : Block :=
  memory.getD i .zero

/-- The block that a pass writes at a position. Later passes add the block that was there. -/
@[inline] def nextBlock (pass : Nat) (memory : Array Block) (i : Nat) : Block :=
  let previous := blockAt memory (if i = 0 then cacheBlocks - 1 else i - 1)
  let reference := blockAt memory (referenceIndex pass i previous.r0.w0)
  let mixed := previous.compress reference
  if pass = 0 then mixed else mixed.xor (blockAt memory i)

/-- Writes `n` blocks from a position on. -/
def fillFrom (pass : Nat) : (n : Nat) → (i : Nat) → Array Block → Array Block
  | 0, _, memory => memory
  | n + 1, i, memory => fillFrom pass n (i + 1) (memory.setIfInBounds i (nextBlock pass memory i))

def fill (key : ByteArray) (memory : Array Block) : Except Error (Array Block) :=
  if memory.size < cacheBlocks then .error .memoryTooSmall
  else
    let memory := (memory.setIfInBounds 0 (firstBlock key 0)).setIfInBounds 1 (firstBlock key 1)
    let memory := fillFrom 0 (cacheBlocks - 2) 2 memory
    let memory := fillFrom 1 cacheBlocks 0 memory
    .ok (fillFrom 2 cacheBlocks 0 memory)

/-! ## Allocation -/

/-- No allocation reaches the size of the address space. -/
def addressSpace : Nat :=
  0x800000000000

/-- Zeroed blocks. A refusal names the size in bytes, which may itself not fit a word. -/
def allocate (count : Nat) : Except Error (Array Block) :=
  if count * blockBytes < addressSpace then .ok (Array.replicate count .zero)
  else if count * blockBytes < UInt64.size then .error (.allocation "cache" (count * blockBytes))
  else .error .overflow

end RandomX.Argon2
