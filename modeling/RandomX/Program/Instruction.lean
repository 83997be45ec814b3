import RandomX.Line
import RandomX.Text
import RandomX.Word

/-!
# Instructions

Instructions with their operands resolved, and the integer registers that each of them may modify.
-/
namespace RandomX.Program

/-! ## Operands -/

/-- A scratchpad operand. -/
inductive Address where
  /-- A register plus a displacement, under a mask. -/
  | register (src : Reg) (imm : UInt64) (mask : UInt32)
  /-- An address known beforehand. -/
  | fixed (address : UInt32)
  deriving DecidableEq, Inhabited

/-- The byte offset for the integer registers. -/
@[inline] def Address.resolve (a : Address) (r : Line) : UInt32 :=
  match a with
  | register src imm mask => (r.get src + imm).toUInt32 &&& mask
  | fixed address => address

inductive Operand where
  | register (src : Reg)
  | immediate (imm : UInt64)
  | memory (address : Address)
  deriving DecidableEq, Inhabited

inductive FloatOperand where
  | register (src : FloatReg)
  | memory (address : Address)
  deriving DecidableEq, Inhabited

/-! ## Operations -/

inductive IntegerOp where
  | add | sub | mul | mulHigh | mulHighSigned | xor | rotateRight | rotateLeft
  deriving DecidableEq, Inhabited

/-- The result of an integer operation. Rotations take their count modulo 64. -/
@[inline] def IntegerOp.apply (op : IntegerOp) (x y : UInt64) : UInt64 :=
  match op with
  | add => x + y
  | sub => x - y
  | mul => x * y
  | mulHigh => RandomX.mulHigh x y
  | mulHighSigned => RandomX.mulHighSigned x y
  | xor => x ^^^ y
  | rotateRight => RandomX.rotateRight x y
  | rotateLeft => RandomX.rotateLeft x y

inductive SumOp where
  | add | sub
  deriving DecidableEq, Inhabited

/-- An instruction. Floating-point registers are of the additive group where sums and scalings name them and of the
multiplicative group where products, quotients and roots do; a register operand of either is of the constant group. -/
inductive Instruction where
  | nop
  /-- Adds a shifted register and a displacement. -/
  | addShifted (dst src : Reg) (shift : UInt8) (imm : UInt64)
  | integer (op : IntegerOp) (dst : Reg) (operand : Operand)
  | negate (dst : Reg)
  | swap (dst src : Reg)
  | swapAdditive (dst : FloatReg)
  | swapMultiplicative (dst : FloatReg)
  | sum (op : SumOp) (dst : FloatReg) (operand : FloatOperand)
  | scale (dst : FloatReg)
  | multiply (dst src : FloatReg)
  | divide (dst : FloatReg) (address : Address)
  | root (dst : FloatReg)
  /-- Adds to a register and goes to the target if the tested bits are then clear. -/
  | branch (reg : Reg) (imm mask : UInt64) (target : Nat)
  /-- Sets the rounding mode from a rotated register. -/
  | setRounding (src : Reg) (rotate : UInt32)
  | store (dst src : Reg) (imm : UInt64) (mask : UInt32)
  deriving DecidableEq, Inhabited

/-- The integer registers that an instruction modifies, a branch apart. -/
def Instruction.modified : Instruction → List Reg
  | addShifted dst _ _ _ => [dst]
  | integer _ dst _ => [dst]
  | negate dst => [dst]
  | swap dst src => [dst, src]
  | _ => []

/-! ## Text -/

def Address.render : Address → String
  | register src imm mask => s!"mem=r{src.index}+{Hex.word imm}&{Hex.digits 8 mask.toNat}"
  | fixed address => s!"mem=@{Hex.digits 8 address.toNat}"

def IntegerOp.stem : IntegerOp → String
  | add => "IADD"
  | sub => "ISUB"
  | mul => "IMUL"
  | mulHigh => "IMULH"
  | mulHighSigned => "ISMULH"
  | xor => "IXOR"
  | rotateRight => "IROR"
  | rotateLeft => "IROL"

def SumOp.stem : SumOp → String
  | add => "FADD"
  | sub => "FSUB"

def Instruction.render : Instruction → String
  | nop => "NOP"
  | addShifted dst src shift imm => s!"IADD_RS dst={dst.index} src={src.index} shift={shift} imm={Hex.word imm}"
  | integer op dst (.register src) => s!"{op.stem}_R dst={dst.index} src={src.index}"
  | integer op dst (.immediate imm) => s!"{op.stem}_I dst={dst.index} imm={Hex.word imm}"
  | integer op dst (.memory address) => s!"{op.stem}_M dst={dst.index} {address.render}"
  | negate dst => s!"INEG_R dst={dst.index}"
  | swap dst src => s!"ISWAP_R dst={dst.index} src={src.index}"
  | swapAdditive dst => s!"FSWAP_F dst={dst.index}"
  | swapMultiplicative dst => s!"FSWAP_E dst={dst.index}"
  | sum op dst (.register src) => s!"{op.stem}_R dst={dst.index} src={src.index}"
  | sum op dst (.memory address) => s!"{op.stem}_M dst={dst.index} {address.render}"
  | scale dst => s!"FSCAL_R dst={dst.index}"
  | multiply dst src => s!"FMUL_R dst={dst.index} src={src.index}"
  | divide dst address => s!"FDIV_M dst={dst.index} {address.render}"
  | root dst => s!"FSQRT_R dst={dst.index}"
  | branch reg imm mask target => s!"CBRANCH reg={reg.index} imm={Hex.word imm} mask={Hex.word mask} target={target}"
  | setRounding src rotate => s!"CFROUND src={src.index} rotate={rotate}"
  | store dst src imm mask =>
    s!"ISTORE dst={dst.index} src={src.index} imm={Hex.word imm} mask={Hex.digits 8 mask.toNat}"

end RandomX.Program
