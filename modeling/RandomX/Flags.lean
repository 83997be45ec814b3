/-!
# Flags

Switches that choose the memory mode and the acceleration. No combination of them changes a digest.
-/
namespace RandomX

structure Flags where
  /-- Back memory with large pages. -/
  largePages : Bool := false
  /-- Use the processor's own rounds where it has them. -/
  hardAes : Bool := false
  /-- Read from a materialised dataset. -/
  fullMem : Bool := false
  /-- Compile programs to native code. -/
  jit : Bool := false
  /-- Keep native code either writable or executable. -/
  secure : Bool := false
  deriving DecidableEq, Inhabited

namespace Flags

def none : Flags :=
  {}

/-- Reads the five lowest bits and drops the others. -/
def ofBits (bits : Nat) : Flags where
  largePages := bits.testBit 0
  hardAes := bits.testBit 1
  fullMem := bits.testBit 2
  jit := bits.testBit 3
  secure := bits.testBit 4

/-- One bit for each switch. -/
def bits (f : Flags) : Nat :=
  f.largePages.toNat + 2 * f.hardAes.toNat + 4 * f.fullMem.toNat + 8 * f.jit.toNat + 16 * f.secure.toNat

def union (f g : Flags) : Flags where
  largePages := f.largePages || g.largePages
  hardAes := f.hardAes || g.hardAes
  fullMem := f.fullMem || g.fullMem
  jit := f.jit || g.jit
  secure := f.secure || g.secure

def inter (f g : Flags) : Flags where
  largePages := f.largePages && g.largePages
  hardAes := f.hardAes && g.hardAes
  fullMem := f.fullMem && g.fullMem
  jit := f.jit && g.jit
  secure := f.secure && g.secure

def complement (f : Flags) : Flags where
  largePages := !f.largePages
  hardAes := !f.hardAes
  fullMem := !f.fullMem
  jit := !f.jit
  secure := !f.secure

/-- Every switch of `g` is set in `f`. -/
def contains (f g : Flags) : Bool :=
  f.inter g == g

def isEmpty (f : Flags) : Bool :=
  f == none

/-- The switches worth setting on a host: its own rounds where it has them, and nothing else. -/
def recommended (hostHasAes : Bool) : Flags where
  hardAes := hostHasAes

/-- The names of the switches that are set, in the order of their bits. -/
def names (f : Flags) : List String :=
  [(f.largePages, "LARGE_PAGES"), (f.hardAes, "HARD_AES"), (f.fullMem, "FULL_MEM"), (f.jit, "JIT"),
    (f.secure, "SECURE")].filterMap fun (isSet, name) => if isSet then some name else Option.none

/-- The names joined by bars, or the word for the empty set. -/
def render (f : Flags) : String :=
  if f.isEmpty then "DEFAULT" else " | ".intercalate f.names

/-! ## Laws -/

theorem ofBits_bits (f : Flags) : ofBits f.bits = f := by
  obtain ⟨a, b, c, d, e⟩ := f
  revert a b c d e
  decide

end Flags

end RandomX
