import RandomX.Machine.RegisterFile
import RandomX.Program.Instruction
import RandomX.Scratchpad

/-!
# Execution

One step runs the instruction that the counter points at. A program ends when the counter leaves it.
-/
namespace RandomX

/-- What an execution reads and writes. -/
structure Core where
  /-- The index of the next instruction. -/
  counter : Nat
  reg : RegisterFile
  pad : Scratchpad

namespace Program

/-! ## Operands -/

@[inline] def Operand.value (o : Operand) (r : Line) (pad : Scratchpad) : Except Error UInt64 :=
  match o with
  | register src => .ok (r.get src)
  | immediate imm => .ok imm
  | memory address => pad.load (address.resolve r).toNat

@[inline] def FloatOperand.value (o : FloatOperand) (reg : RegisterFile) (pad : Scratchpad) :
    Except Error FloatPair :=
  match o with
  | register src => .ok (reg.a.get src)
  | memory address => pad.loadPair (address.resolve reg.r).toNat

@[inline] def SumOp.apply (op : SumOp) (mode : Rounding) (x y : Binary64) : Binary64 :=
  match op with
  | add => x.add mode y
  | sub => x.sub mode y

/-! ## Instructions -/

/-- Goes on to the next instruction with changed registers. -/
@[inline] def advance (c : Core) (reg : RegisterFile) : Except Error Core :=
  .ok { c with counter := c.counter + 1, reg := reg }

/-- Runs an instruction. `masks` are those of the divisors. A shift past the width of a word is refused. -/
def Instruction.execute (i : Instruction) (masks : LaneMasks) (c : Core) : Except Error Core :=
  let reg := c.reg
  let r := reg.r
  match i with
  | nop => advance c reg
  | addShifted dst src shift imm =>
    if shift < 64 then advance c { reg with r := r.set dst (r.get dst + (r.get src <<< shift.toUInt64) + imm) }
    else .error .overflow
  | integer op dst operand => do
    let v ← operand.value r c.pad
    advance c { reg with r := r.set dst (op.apply (r.get dst) v) }
  | negate dst => advance c { reg with r := r.set dst (0 - r.get dst) }
  | swap dst src => advance c { reg with r := (r.set dst (r.get src)).set src (r.get dst) }
  | swapAdditive dst => advance c { reg with f := reg.f.set dst (reg.f.get dst).swap }
  | swapMultiplicative dst => advance c { reg with e := reg.e.set dst (reg.e.get dst).swap }
  | sum op dst operand => do
    let v ← operand.value reg c.pad
    advance c { reg with f := reg.f.set dst ((reg.f.get dst).map₂ (op.apply reg.rounding) v) }
  | scale dst => advance c { reg with f := reg.f.set dst ((reg.f.get dst).map .scaled) }
  | multiply dst src =>
    advance c { reg with e := reg.e.set dst ((reg.e.get dst).map₂ (.mul reg.rounding) (reg.a.get src)) }
  | divide dst address => do
    let v ← c.pad.loadPair (address.resolve r).toNat
    advance c { reg with e := reg.e.set dst ((reg.e.get dst).map₂ (.div reg.rounding) (v.masked masks)) }
  | root dst => advance c { reg with e := reg.e.set dst ((reg.e.get dst).map (.sqrt reg.rounding)) }
  | branch b imm mask target =>
    let v := r.get b + imm
    let reg := { reg with r := r.set b v }
    if v &&& mask = 0 then .ok { c with counter := target, reg := reg } else advance c reg
  | setRounding src rotate =>
    advance c { reg with rounding := .ofWord (rotateRight (r.get src) rotate.toUInt64) }
  | store dst src imm mask => do
    let pad ← c.pad.store ((r.get dst + imm).toUInt32 &&& mask).toNat (r.get src)
    .ok { counter := c.counter + 1, reg := reg, pad := pad }

/-! ## Programs -/

@[inline] def step (code : Array Instruction) (masks : LaneMasks) (c : Core) : Except Error Core :=
  match code[c.counter]? with
  | none => .error .outOfBounds
  | some i => i.execute masks c

/-- Steps until the counter leaves the program. -/
def run (code : Array Instruction) (masks : LaneMasks) : (limit : Nat) → Core → Except Error Core
  | 0, c => if programSize ≤ c.counter then .ok c else .error .stepLimit
  | n + 1, c => if programSize ≤ c.counter then .ok c else do run code masks n (← step code masks c)

/-- The steps that suffice for any compiled program: each instruction runs at most three times. -/
def stepLimit : Nat :=
  3 * programSize

def execute (code : Array Instruction) (masks : LaneMasks) (reg : RegisterFile) (pad : Scratchpad) :
    Except Error (RegisterFile × Scratchpad) := do
  let c ← run code masks stepLimit ⟨0, reg, pad⟩
  return (c.reg, c.pad)

end Program

end RandomX
