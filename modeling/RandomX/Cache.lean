import RandomX.Argon2.Memory
import RandomX.Entropy
import RandomX.Flags
import RandomX.KeyMaterial
import RandomX.Superscalar.Builder

/-!
# Cache

The memory filled from a key, and the programs that expand it into dataset items.
-/
namespace RandomX

open Argon2 (Block)

structure Cache where
  blocks : Array Block
  programs : List Superscalar.Program
  /-- The key of the memory and the programs, once both are there. -/
  key : Option ByteArray
  deriving Inhabited

namespace Cache

/-! ## Construction -/

/-- The features that no memory is built with. -/
def checkFlags (flags : Flags) : Except Error Unit :=
  if flags.jit then .error (.unsupported "JIT compilation")
  else if flags.largePages then .error (.unsupported "large pages")
  else .ok ()

/-- Reserves the memory. The cache holds no key yet. -/
def create (flags : Flags) : Except Error Cache := do
  checkFlags flags
  return ⟨← Argon2.allocate cacheBlocks, [], none⟩

def generatePrograms {σ : Type} [EntropyStream σ] : (n : Nat) → σ → Except Error (List Superscalar.Program)
  | 0, _ => .ok []
  | n + 1, s => do
    let (program, s) ← Superscalar.Program.generate s
    return program :: (← generatePrograms n s)

def programsOf (key : ByteArray) : Except Error (List Superscalar.Program) :=
  generatePrograms cacheAccesses (Generator.ofSeed key 0 : Blake2Generator)

/-- Whether a key is the one held. -/
def holds (c : Cache) (key : ByteArray) : Bool :=
  match c.key with
  | some held => held.data == key.data
  | none => false

/-- Takes a key with a given way to fill the memory. A key that is already held changes nothing. On a failure the cache
holds no key. -/
def initWith (fill : ByteArray → Array Block → Except Error (Array Block)) (key : ByteArray) (c : Cache) :
    Except Error Unit × Cache :=
  if c.holds key then (.ok (), c)
  else
    match fill key c.blocks with
    | .error e => (.error e, { c with key := none })
    | .ok blocks =>
      match programsOf key with
      | .error e => (.error e, ⟨blocks, [], none⟩)
      | .ok programs => (.ok (), ⟨blocks, programs, some key⟩)

def init (key : ByteArray) (c : Cache) : Except Error Unit × Cache :=
  initWith Argon2.fill key c

def ofKey (flags : Flags) (key : ByteArray) : Except Error Cache := do
  match (← create flags).init key with
  | (.ok (), c) => return c
  | (.error e, _) => throw e

def isInitialised (c : Cache) : Bool :=
  c.key.isSome

/-! ## Lines and words -/

/-- The eight words of a block from a position on. -/
def lineFrom (b : Block) (start : Nat) : Except Error Line :=
  match b.words.drop start with
  | w0 :: w1 :: w2 :: w3 :: w4 :: w5 :: w6 :: w7 :: _ => .ok ⟨w0, w1, w2, w3, w4, w5, w6, w7⟩
  | _ => .error .outOfBounds

/-- The line that a register value selects. -/
def mixLine (c : Cache) (register : UInt64) : Except Error Line :=
  let offset := (register &&& cacheLineMask).toNat * lineBytes
  match c.blocks[offset / blockBytes]? with
  | some b => lineFrom b (offset % blockBytes / 8)
  | none => .error .outOfBounds

def word (c : Cache) (i : Nat) : Except Error UInt64 :=
  match c.blocks[i / blockWords]?.bind fun b => b.words[i % blockWords]? with
  | some w => .ok w
  | none => .error .outOfBounds

/-! ## Dataset items -/

/-- The registers from which an item starts. -/
def seedLine (number : UInt64) : Line :=
  let constants := KeyMaterial.superscalar
  let first := (number + 1) * constants.w0
  { constants with w0 := 0 }.xor ⟨first, first, first, first, first, first, first, first⟩

/-- Runs the programs in order, each followed by the line that the register value before it selects. -/
def mixPrograms (c : Cache) : List Superscalar.Program → (register : UInt64) → Line → Except Error Line
  | [], _, line => .ok line
  | program :: rest, register, line => do
    let mix ← c.mixLine register
    let line := (← program.execute line).xor mix
    mixPrograms c rest (line.get program.addressRegister) line

/-- The item of a number. The number after the greatest does not exist. -/
def item (c : Cache) (number : UInt64) : Except Error Line :=
  if !c.isInitialised then .error .cacheUninitialised
  else if number = 0xFFFFFFFFFFFFFFFF then .error .overflow
  else c.mixPrograms c.programs number (seedLine number)

def describe (c : Cache) : String :=
  s!"Cache \x7b blocks: {c.blocks.size}, programs: {c.programs.length}, initialized: {c.isInitialised} \x7d"

end Cache

end RandomX
