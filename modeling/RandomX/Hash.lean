import RandomX.Machine.Basic

/-!
# Hashes

The digest of an input under the key of a machine, and the commitment that binds a digest to its input.
-/
namespace RandomX

abbrev Digest := Vector UInt8 32

namespace Machine

/-- The registers with the hash of the scratchpad in the place of the constant group. -/
def finalBytes (m : Machine) : ByteArray :=
  bytesOfWords (m.reg.r.toList ++ m.reg.f.toLine.toList ++ m.reg.e.toLine.toList) ++ bytesOfVector m.pad.digest

/-- Hashes an input: its digest fills the scratchpad, the advanced seed starts the rounds, and the final registers are
digested with the scratchpad. -/
def hash (m : Machine) (input : ByteArray) : Except Error (Digest × Machine) := do
  let (seed, m) := m.fillPad (Blake2b.hash512 input)
  let ((), m) ← m.guarded fun m => do return ((), ← m.runChain programCount seed)
  return (Blake2b.hash256 m.finalBytes, m)

end Machine

/-- Hashes an input under a key once, in light mode whatever the flags say. -/
def hashOnce (flags : Flags) (key input : ByteArray) : Except Error Digest := do
  let flags := { flags with fullMem := false }
  let cache ← Cache.ofKey flags key
  let m ← Machine.create flags (some cache) none
  return (← m.hash input).1

/-- The digest of an input followed by its digest. -/
def commitment (input : ByteArray) (digest : Digest) : Digest :=
  Blake2b.hash256 (input ++ bytesOfVector digest)

end RandomX
