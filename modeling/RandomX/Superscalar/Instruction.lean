import RandomX.Error
import RandomX.Line
import RandomX.Text
import RandomX.Word

/-!
# Superscalar instructions

The operations that expand the cache into dataset items, and programs of them.
-/
namespace RandomX.Superscalar

/-- Operations. The forms with a constant come in three encoded lengths that compute the same. -/
inductive Opcode where
  | isubR | ixorR | iaddRS | imulR | irorC
  | iaddC7 | ixorC7 | iaddC8 | ixorC8 | iaddC9 | ixorC9
  | imulhR | ismulhR | imulRcp
  deriving DecidableEq, Inhabited

namespace Opcode

def name : Opcode → String
  | isubR => "ISUB_R"
  | ixorR => "IXOR_R"
  | iaddRS => "IADD_RS"
  | imulR => "IMUL_R"
  | irorC => "IROR_C"
  | iaddC7 => "IADD_C7"
  | ixorC7 => "IXOR_C7"
  | iaddC8 => "IADD_C8"
  | ixorC8 => "IXOR_C8"
  | iaddC9 => "IADD_C9"
  | ixorC9 => "IXOR_C9"
  | imulhR => "IMULH_R"
  | ismulhR => "ISMULH_R"
  | imulRcp => "IMUL_RCP"

def isMultiplication : Opcode → Bool
  | imulR | imulhR | ismulhR | imulRcp => true
  | _ => false

end Opcode

/-- An instruction. The immediate is the shift, the rotation, the extended constant or the reciprocal that the
operation needs; operations on a constant ignore the source. -/
structure Instruction where
  opcode : Opcode
  dst : Reg
  src : Reg
  imm : UInt64
  deriving DecidableEq, Inhabited

def Instruction.render (i : Instruction) : String :=
  s!"{i.opcode.name} {i.dst.index} {i.src.index} {Hex.word i.imm}"

/-! ## Execution -/

/-- Runs one instruction. A shift past the width of a word is refused. -/
@[inline] def Instruction.execute (i : Instruction) (r : Line) : Except Error Line :=
  match i.opcode with
  | .isubR => .ok (r.set i.dst (r.get i.dst - r.get i.src))
  | .ixorR => .ok (r.set i.dst (r.get i.dst ^^^ r.get i.src))
  | .iaddRS =>
    if i.imm < 64 then .ok (r.set i.dst (r.get i.dst + (r.get i.src <<< i.imm))) else .error .overflow
  | .imulR => .ok (r.set i.dst (r.get i.dst * r.get i.src))
  | .irorC => .ok (r.set i.dst (rotateRight (r.get i.dst) i.imm))
  | .iaddC7 | .iaddC8 | .iaddC9 => .ok (r.set i.dst (r.get i.dst + i.imm))
  | .ixorC7 | .ixorC8 | .ixorC9 => .ok (r.set i.dst (r.get i.dst ^^^ i.imm))
  | .imulhR => .ok (r.set i.dst (mulHigh (r.get i.dst) (r.get i.src)))
  | .ismulhR => .ok (r.set i.dst (mulHighSigned (r.get i.dst) (r.get i.src)))
  | .imulRcp => .ok (r.set i.dst (r.get i.dst * i.imm))

/-- A program, and the register whose value selects the next cache line. -/
structure Program where
  instructions : Array Instruction
  addressRegister : Reg
  deriving DecidableEq, Inhabited

def Program.execute (p : Program) (r : Line) : Except Error Line :=
  p.instructions.foldlM (fun r i => i.execute r) r

end RandomX.Superscalar
