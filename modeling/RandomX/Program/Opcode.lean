/-!
# Opcodes

The raw instruction types. Each owns a range of opcode bytes as wide as its frequency out of 256.
-/
namespace RandomX.Program

/-- A raw instruction type, before its operands are resolved. -/
inductive Opcode where
  | iaddRS | iaddM | isubR | isubM | imulR | imulM | imulhR | imulhM | ismulhR | ismulhM
  | imulRcp | inegR | ixorR | ixorM | irorR | irolR | iswapR
  | fswapR | faddR | faddM | fsubR | fsubM | fscalR | fmulR | fdivM | fsqrtR
  | cbranch | cfround | istore
  deriving DecidableEq, Inhabited

namespace Opcode

def name : Opcode → String
  | iaddRS => "IADD_RS"
  | iaddM => "IADD_M"
  | isubR => "ISUB_R"
  | isubM => "ISUB_M"
  | imulR => "IMUL_R"
  | imulM => "IMUL_M"
  | imulhR => "IMULH_R"
  | imulhM => "IMULH_M"
  | ismulhR => "ISMULH_R"
  | ismulhM => "ISMULH_M"
  | imulRcp => "IMUL_RCP"
  | inegR => "INEG_R"
  | ixorR => "IXOR_R"
  | ixorM => "IXOR_M"
  | irorR => "IROR_R"
  | irolR => "IROL_R"
  | iswapR => "ISWAP_R"
  | fswapR => "FSWAP_R"
  | faddR => "FADD_R"
  | faddM => "FADD_M"
  | fsubR => "FSUB_R"
  | fsubM => "FSUB_M"
  | fscalR => "FSCAL_R"
  | fmulR => "FMUL_R"
  | fdivM => "FDIV_M"
  | fsqrtR => "FSQRT_R"
  | cbranch => "CBRANCH"
  | cfround => "CFROUND"
  | istore => "ISTORE"

/-- The opcodes in the order of their ranges, each with its frequency. -/
def frequencies : List (Opcode × Nat) :=
  [(iaddRS, 16), (iaddM, 7), (isubR, 16), (isubM, 7), (imulR, 16), (imulM, 4), (imulhR, 4), (imulhM, 1),
   (ismulhR, 4), (ismulhM, 1), (imulRcp, 8), (inegR, 2), (ixorR, 15), (ixorM, 5), (irorR, 8), (irolR, 2),
   (iswapR, 4), (fswapR, 4), (faddR, 16), (faddM, 5), (fsubR, 16), (fsubM, 5), (fscalR, 6), (fmulR, 32),
   (fdivM, 4), (fsqrtR, 6), (cbranch, 25), (cfround, 1), (istore, 16)]

/-- The opcode whose range holds a position. -/
def inRanges : List (Opcode × Nat) → Nat → Opcode
  | [], _ => istore
  | (opcode, width) :: rest, n => if n < width then opcode else inRanges rest (n - width)

/-- The opcode of every byte. -/
def table : Vector Opcode 256 :=
  Vector.ofFn fun i => inRanges frequencies i

def ofByte (b : UInt8) : Opcode :=
  table.get b.toFin

end Opcode

end RandomX.Program
