import RandomX.Blake2b

/-!
# Entropy streams

A stream hands out bytes and words. The generator takes them from blocks, each the hash of the one before, and never
splits a word between two blocks.
-/
namespace RandomX

/-- A source of bytes and 32-bit words. -/
class EntropyStream (σ : Type) where
  nextByte : σ → UInt8 × σ
  nextWord : σ → UInt32 × σ

export EntropyStream (nextByte nextWord)

/-- A block of bytes under a hash, and the number of its bytes that are spent. -/
structure Generator (hash : Vector UInt8 64 → Vector UInt8 64) where
  block : Vector UInt8 64
  position : Nat

namespace Generator

variable {hash : Vector UInt8 64 → Vector UInt8 64}

/-- The byte of the starting block: up to sixty bytes of the seed, zeros, and the nonce. -/
def seedByte (seed : ByteArray) (nonce : UInt32) (i : Nat) : UInt8 :=
  if i < 60 then byteAt seed i else byte32 nonce (8 * (i - 60).toUInt32)

/-- Starts behind the end of the seed's block, so that no byte of it is handed out. -/
def ofSeed (seed : ByteArray) (nonce : UInt32) : Generator hash where
  block := Vector.ofFn fun i => seedByte seed nonce i
  position := 64

/-- Goes to the next block if fewer than `n` bytes are left. -/
def refill (g : Generator hash) (n : Nat) : Generator hash :=
  if g.position + n ≤ 64 then g else ⟨hash g.block, 0⟩

theorem refill_position_le (g : Generator hash) {n : Nat} (h : n ≤ 64) : (g.refill n).position + n ≤ 64 := by
  unfold refill
  split
  · assumption
  · simpa using h

def takeByte (g : Generator hash) : UInt8 × Generator hash :=
  have h := g.refill_position_le (n := 1) (by decide)
  let g' := g.refill 1
  (g'.block[g'.position], { g' with position := g'.position + 1 })

/-- The next four bytes of one block, low byte first. -/
def takeWord (g : Generator hash) : UInt32 × Generator hash :=
  have h := g.refill_position_le (n := 4) (by decide)
  let g' := g.refill 4
  let p := g'.position
  (word32 g'.block[p] g'.block[p + 1] g'.block[p + 2] g'.block[p + 3], { g' with position := p + 4 })

instance : EntropyStream (Generator hash) where
  nextByte := takeByte
  nextWord := takeWord

end Generator

/-- One block of the stream from the block before. -/
def nextBlock (block : Vector UInt8 64) : Vector UInt8 64 :=
  Blake2b.hash512 (bytesOfVector block)

abbrev Blake2Generator := Generator nextBlock

end RandomX
