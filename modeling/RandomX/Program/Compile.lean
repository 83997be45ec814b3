import RandomX.Aes.Generator
import RandomX.Bytes
import RandomX.Parameters
import RandomX.Program.Instruction
import RandomX.Program.Opcode
import RandomX.Word

/-!
# Compilation

Raw instructions are resolved once: operand forms, masks, reciprocals, and the targets of branches. A branch goes back
to the instruction after the last one that modified its register; a branch itself counts as modifying every register,
so the bodies of two branches never overlap. The bytes come from a seed, with the entropy of the round in front of them.
-/
namespace RandomX

namespace Program

/-- An instruction of eight bytes, split into its parts. -/
structure RawInstruction where
  opcode : Opcode
  dst : Reg
  src : Reg
  modifier : UInt8
  imm32 : UInt32
  deriving DecidableEq, Inhabited

namespace RawInstruction

/-- The instruction at an index of a program's bytes. -/
def read (raw : ByteArray) (i : Nat) : RawInstruction :=
  let start := instructionBytes * i
  { opcode := .ofByte (byteAt raw start)
    dst := .ofByte (byteAt raw (start + 1))
    src := .ofByte (byteAt raw (start + 2))
    modifier := byteAt raw (start + 3)
    imm32 := word32At raw (start + 4) }

variable (i : RawInstruction)

/-! ## Operand forms -/

/-- The immediate, extended by its sign. -/
def imm : UInt64 :=
  signExtend i.imm32

/-- The mask of the two smaller windows that the modifier selects. -/
def mask : UInt32 :=
  if i.modifier % 4 ≠ 0 then maskL1 else maskL2

/-- An integer operand in memory: with one register for both operands its address is the immediate alone. -/
def memory : Address :=
  if i.src ≠ i.dst then .register i.src i.imm i.mask else .fixed (i.imm.toUInt32 &&& maskL3)

/-- A floating-point operand in memory always goes through a register. -/
def floatMemory : Address :=
  .register i.src i.imm i.mask

/-- The source register, or the immediate where it is the destination. -/
def registerOrImmediate : Operand :=
  if i.src ≠ i.dst then .register i.src else .immediate i.imm

def onRegister (op : IntegerOp) : Instruction :=
  .integer op i.dst i.registerOrImmediate

def onMemory (op : IntegerOp) : Instruction :=
  .integer op i.dst (.memory i.memory)

/-! ## Branches and stores -/

/-- The lowest of the bits that a branch tests. -/
def conditionShift : UInt64 :=
  (i.modifier >>> 4).toUInt64 + conditionOffset

/-- The addend of a branch: the lowest tested bit is set and the one below it clear, so that a second addition leaves
the tested bits other than zero. -/
def branchImm : UInt64 :=
  (i.imm ||| ((1 : UInt64) <<< i.conditionShift)) &&& ~~~((1 : UInt64) <<< (i.conditionShift - 1))

def storeMask : UInt32 :=
  if i.modifier >>> 4 < storeL3Condition then i.mask else maskL3

/-- Resolves the instruction, given the target for a branch on its destination. -/
def resolve (target : Nat) : Except Error Instruction :=
  match i.opcode with
  | .iaddRS => .ok (.addShifted i.dst i.src ((i.modifier >>> 2) % 4) (if i.dst = .r5 then i.imm else 0))
  | .iaddM => .ok (i.onMemory .add)
  | .isubR => .ok (i.onRegister .sub)
  | .isubM => .ok (i.onMemory .sub)
  | .imulR => .ok (i.onRegister .mul)
  | .imulM => .ok (i.onMemory .mul)
  | .imulhR => .ok (.integer .mulHigh i.dst (.register i.src))
  | .imulhM => .ok (i.onMemory .mulHigh)
  | .ismulhR => .ok (.integer .mulHighSigned i.dst (.register i.src))
  | .ismulhM => .ok (i.onMemory .mulHighSigned)
  | .imulRcp =>
    if isDivisor i.imm32 then do
      let inverse ← reciprocal i.imm32
      return .integer .mul i.dst (.immediate inverse)
    else .ok .nop
  | .inegR => .ok (.negate i.dst)
  | .ixorR => .ok (i.onRegister .xor)
  | .ixorM => .ok (i.onMemory .xor)
  | .irorR => .ok (i.onRegister .rotateRight)
  | .irolR => .ok (i.onRegister .rotateLeft)
  | .iswapR => .ok (if i.src ≠ i.dst then .swap i.dst i.src else .nop)
  | .fswapR => .ok (if i.dst.index < 4 then .swapAdditive i.dst.toFloat else .swapMultiplicative i.dst.toFloat)
  | .faddR => .ok (.sum .add i.dst.toFloat (.register i.src.toFloat))
  | .faddM => .ok (.sum .add i.dst.toFloat (.memory i.floatMemory))
  | .fsubR => .ok (.sum .sub i.dst.toFloat (.register i.src.toFloat))
  | .fsubM => .ok (.sum .sub i.dst.toFloat (.memory i.floatMemory))
  | .fscalR => .ok (.scale i.dst.toFloat)
  | .fmulR => .ok (.multiply i.dst.toFloat i.src.toFloat)
  | .fdivM => .ok (.divide i.dst.toFloat i.floatMemory)
  | .fsqrtR => .ok (.root i.dst.toFloat)
  | .cbranch => .ok (.branch i.dst i.branchImm (conditionMask <<< i.conditionShift) target)
  | .cfround => .ok (.setRounding i.src (i.imm32 &&& 63))
  | .istore => .ok (.store i.dst i.src i.imm i.storeMask)

end RawInstruction

/-! ## Branch targets -/

/-- For each register, where a branch on it would go. -/
abbrev Targets := RegMap Nat

namespace Targets

/-- Before the first instruction every branch would go to the start. -/
def start : Targets :=
  .constant 0

/-- The targets after an instruction at an index. -/
def after (t : Targets) (i : Nat) (instruction : Instruction) : Targets :=
  match instruction with
  | .branch .. => .constant (i + 1)
  | _ => instruction.modified.foldl (fun t r => t.set r (i + 1)) t

end Targets

/-! ## Programs -/

abbrev Code := Array Instruction

/-- Resolves `n` instructions from an index on, and appends them. -/
def compileFrom (raw : ByteArray) : (n : Nat) → (i : Nat) → Targets → Code → Except Error Code
  | 0, _, _, code => .ok code
  | n + 1, i, targets, code => do
    let source := RawInstruction.read raw i
    let instruction ← source.resolve (targets.get source.dst)
    compileFrom raw n (i + 1) (targets.after i instruction) (code.push instruction)

/-- Compiles the first instructions of a string of bytes. Bytes after them are ignored. -/
def compile (raw : ByteArray) : Except Error Code :=
  if raw.size < programSize * instructionBytes then .error .programTooShort
  else compileFrom raw programSize 0 .start (.emptyWithCapacity programSize)

/-! ## Text -/

/-- The texts of the instructions from `start` up to, but not with, `stop`. The range must lie inside the code. -/
def listing (code : Code) (start stop : Nat) : Except Error (List String) :=
  if start ≤ stop ∧ stop ≤ code.size then .ok ((code.extract start stop).toList.map Instruction.render)
  else .error .outOfBounds

end Program

/-! ## Generated programs -/

/-- What the generator of four rounds makes of a seed: sixteen words of entropy, then the code. -/
structure Program where
  entropy : Vector UInt64 16
  code : Program.Code

namespace Program

/-- Reads the entropy and compiles the code behind it. -/
def ofBytes (buffer : ByteArray) : Except Error Program := do
  let code ← compile (buffer.extract entropyBytes buffer.size)
  return ⟨Vector.ofFn fun i => word64At buffer (8 * i), code⟩

def ofSeed (seed : Vector UInt8 64) : Except Error Program := do
  ofBytes (← Aes.fill4 seed programBufferBytes)

end Program

end RandomX
