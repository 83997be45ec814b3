import RandomX.Superscalar.Instruction

/-!
# Macro-operations

What the modelled processor does for each instruction: its macro-operations, the ports that they can issue on, and
which of them reads the source, fixes the destination and yields the result.
-/
namespace RandomX.Superscalar

/-- An execution port of the modelled processor. -/
inductive Port where
  | p0 | p1 | p5
  deriving DecidableEq, Inhabited

/-- A micro-operation, named for the ports that it can issue on. -/
inductive MicroOp where
  | p1 | p5 | p01 | p05 | p015
  deriving DecidableEq, Inhabited

/-- Whether a micro-operation can issue on a port. -/
def MicroOp.permits : MicroOp → Port → Bool
  | p1, .p1 => true
  | p5, .p5 => true
  | p01, .p0 | p01, .p1 => true
  | p05, .p0 | p05, .p5 => true
  | p015, _ => true
  | _, _ => false

/-- How a macro-operation issues: on no port, as one micro-operation, or as two in the same cycle. -/
inductive Issue where
  | eliminated
  | simple (op : MicroOp)
  | pair (first second : MicroOp)
  deriving DecidableEq, Inhabited

structure MacroOp where
  /-- Cycles until the result is there. -/
  latency : Nat
  issue : Issue
  /-- Waits for the macro-operation before it. -/
  isDependent : Bool := false
  deriving DecidableEq, Inhabited

namespace MacroOp

/-- A one-cycle operation that any port takes. -/
def plain : MacroOp := ⟨1, .simple .p015, false⟩
def scaledAdd : MacroOp := ⟨1, .simple .p01, false⟩
def rotation : MacroOp := ⟨1, .simple .p05, false⟩
/-- A multiplication that keeps the low half. -/
def multiply : MacroOp := ⟨3, .simple .p1, false⟩
/-- A multiplication that keeps both halves. -/
def multiplyWide : MacroOp := ⟨4, .pair .p1 .p5, false⟩
def move : MacroOp := ⟨0, .eliminated, false⟩

end MacroOp

/-- The macro-operations of an instruction and their roles. -/
structure Recipe where
  ops : List MacroOp
  /-- The macro-operation that yields the result. -/
  resultOp : Nat
  /-- The macro-operation at which the destination is chosen. -/
  dstOp : Nat
  /-- The macro-operation at which the source is chosen. -/
  srcOp : Option Nat
  deriving DecidableEq, Inhabited

def Opcode.recipe : Opcode → Recipe
  | isubR | ixorR => ⟨[.plain], 0, 0, some 0⟩
  | iaddRS => ⟨[.scaledAdd], 0, 0, some 0⟩
  | imulR => ⟨[.multiply], 0, 0, some 0⟩
  | irorC => ⟨[.rotation], 0, 0, none⟩
  | iaddC7 | ixorC7 | iaddC8 | ixorC8 | iaddC9 | ixorC9 => ⟨[.plain], 0, 0, none⟩
  | imulhR | ismulhR => ⟨[.move, .multiplyWide, .move], 1, 0, some 1⟩
  | imulRcp => ⟨[.plain, { MacroOp.multiply with isDependent := true }], 1, 1, none⟩

end RandomX.Superscalar
