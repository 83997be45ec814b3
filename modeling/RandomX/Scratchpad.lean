import RandomX.Aes.Generator
import RandomX.FloatGroup
import RandomX.Parameters

/-!
# Scratchpad

Two mebibytes of byte-addressed memory. A word may lie at any address; one that leaves the memory is refused.
-/
namespace RandomX

/-- The working memory of a machine. -/
structure Scratchpad where
  bytes : ByteArray
  size_bytes : bytes.size = scratchpadBytes

namespace Scratchpad

def blank : Scratchpad :=
  ⟨⟨Array.replicate scratchpadBytes 0⟩, Array.size_replicate⟩

instance : Inhabited Scratchpad :=
  ⟨blank⟩

/-! ## Words -/

def load (pad : Scratchpad) (a : Nat) : Except Error UInt64 :=
  if h : a + 8 ≤ pad.bytes.size then
    .ok (word64 pad.bytes[a] pad.bytes[a + 1] pad.bytes[a + 2] pad.bytes[a + 3]
      pad.bytes[a + 4] pad.bytes[a + 5] pad.bytes[a + 6] pad.bytes[a + 7])
  else .error .outOfBounds

theorem size_set (bytes : ByteArray) (a : Nat) (b : UInt8) : (bytes.set! a b).size = bytes.size := by
  cases bytes
  exact Array.size_setIfInBounds

@[inline] def setByte (pad : Scratchpad) (a : Nat) (b : UInt8) : Scratchpad :=
  ⟨pad.bytes.set! a b, (size_set pad.bytes a b).trans pad.size_bytes⟩

/-- Writes a word at an address, low byte first. -/
def store (pad : Scratchpad) (a : Nat) (v : UInt64) : Except Error Scratchpad :=
  if a + 8 ≤ pad.bytes.size then
    .ok ((((((((pad.setByte a (byte64 v 0)).setByte (a + 1) (byte64 v 8)).setByte (a + 2) (byte64 v 16)).setByte
      (a + 3) (byte64 v 24)).setByte (a + 4) (byte64 v 32)).setByte (a + 5) (byte64 v 40)).setByte
      (a + 6) (byte64 v 48)).setByte (a + 7) (byte64 v 56))
  else .error .outOfBounds

/-- The two signed halves of the word at an address as doubles, the low half first. -/
def loadPair (pad : Scratchpad) (a : Nat) : Except Error FloatPair := do
  let w ← pad.load a
  return ⟨.ofInt32 w.toUInt32, .ofInt32 (w >>> 32).toUInt32⟩

/-! ## Lines -/

def loadLine (pad : Scratchpad) (a : Nat) : Except Error Line := do
  return ⟨← pad.load a, ← pad.load (a + 8), ← pad.load (a + 16), ← pad.load (a + 24),
    ← pad.load (a + 32), ← pad.load (a + 40), ← pad.load (a + 48), ← pad.load (a + 56)⟩

def loadGroup (pad : Scratchpad) (a : Nat) : Except Error FloatGroup := do
  return ⟨← pad.loadPair a, ← pad.loadPair (a + 8), ← pad.loadPair (a + 16), ← pad.loadPair (a + 24)⟩

def storeLine (pad : Scratchpad) (a : Nat) (l : Line) : Except Error Scratchpad := do
  let pad ← pad.store a l.w0
  let pad ← pad.store (a + 8) l.w1
  let pad ← pad.store (a + 16) l.w2
  let pad ← pad.store (a + 24) l.w3
  let pad ← pad.store (a + 32) l.w4
  let pad ← pad.store (a + 40) l.w5
  let pad ← pad.store (a + 48) l.w6
  pad.store (a + 56) l.w7

/-! ## The whole memory -/

/-- The bytes and lanes that a filling seed yields. -/
def filling (seed : Vector UInt8 64) : ByteArray × Aes.Lanes :=
  Aes.generate Aes.step1 (scratchpadBytes / 64) (.ofVector seed) (.emptyWithCapacity scratchpadBytes)

theorem size_filling (seed : Vector UInt8 64) : (filling seed).1.size = scratchpadBytes := by
  have h : (ByteArray.emptyWithCapacity scratchpadBytes).size = 0 := rfl
  rw [filling, Aes.size_generate, h]
  decide

/-- Fills the memory from a seed, and returns the advanced seed. -/
def fill (seed : Vector UInt8 64) : Scratchpad × Vector UInt8 64 :=
  (⟨(filling seed).1, size_filling seed⟩, (filling seed).2.toVector)

def digest (pad : Scratchpad) : Vector UInt8 64 :=
  Aes.hashBlocks pad.bytes

def slice (pad : Scratchpad) (a n : Nat) : Except Error ByteArray :=
  if a + n ≤ pad.bytes.size then .ok (pad.bytes.extract a (a + n)) else .error .outOfBounds

def describe (pad : Scratchpad) : String :=
  s!"Scratchpad \x7b len: {pad.bytes.size} \x7d"

end Scratchpad

end RandomX
