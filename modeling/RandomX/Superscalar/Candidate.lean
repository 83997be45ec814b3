import RandomX.Entropy
import RandomX.Superscalar.MacroOp
import RandomX.Word

/-!
# Candidates

An instruction on its way into the program: drawn for the length of a slot, then given a source and a destination out of
the registers that are ready.
-/
namespace RandomX.Superscalar

/-- What tells two instructions of one group apart. -/
inductive Operand where
  | none
  | source (r : Reg)
  | draw (w : UInt32)
  deriving DecidableEq, Inhabited

/-- What the model knows of a register: when its value is ready, and the group and operand of its last writer. -/
structure RegisterState where
  ready : Nat
  group : Option Opcode
  operand : Operand
  deriving DecidableEq, Inhabited

abbrev RegisterStates := RegMap RegisterState

structure Candidate where
  opcode : Opcode
  /-- Operations of one group undo or merge with each other. -/
  group : Opcode
  operand : Operand
  /-- The operand is the source, once that is chosen. -/
  operandIsSource : Bool
  /-- The destination may be the source. -/
  mayReuseSource : Bool
  imm32 : UInt32
  shift : UInt8
  src : Option Reg
  dst : Option Reg
  deriving DecidableEq, Inhabited

/-! ## Draws -/

section Draws

variable {σ : Type} [EntropyStream σ]

-- The recursive calls are tactic steps. As terms they would keep a record of their place in the file.

/-- Draws a rotation until it is not zero. There is none if every draw is rejected. -/
def drawRotation (s : σ) : Option (UInt32 × σ) :=
  let (b, s) := nextByte s
  if b &&& 63 = 0 then by apply drawRotation; exact s
  else some ((b &&& 63).toUInt32, s)
partial_fixpoint

/-- Draws a divisor until it has a reciprocal. There is none if every draw is rejected. -/
def drawDivisor (s : σ) : Option (UInt32 × σ) :=
  let (w, s) := nextWord s
  if isDivisor w then some (w, s)
  else by apply drawDivisor; exact s
partial_fixpoint

/-- The outcome of a draw, refused if it has no end. -/
def ended {α : Type} : Option α → Except Error α
  | some a => .ok a
  | none => .error .drawLimit

/-- Picks one of the registers. A single one is picked without a draw. -/
def pickRegister : List Reg → σ → Option Reg × σ
  | [], s => (none, s)
  | [r], s => (some r, s)
  | rs, s =>
    let (w, s) := nextWord s
    (rs[w.toNat % rs.length]?, s)

end Draws

namespace Candidate

/-! ## Creation -/

def plain (opcode group : Opcode) (operandIsSource : Bool) : Candidate where
  opcode
  group
  operand := .none
  operandIsSource
  mayReuseSource := false
  imm32 := 0
  shift := 0
  src := none
  dst := none

variable {σ : Type} [EntropyStream σ]

def create (opcode : Opcode) (s : σ) : Except Error (Candidate × σ) :=
  match opcode with
  | .isubR => .ok (plain opcode .iaddRS true, s)
  | .ixorR => .ok (plain opcode .ixorR true, s)
  | .iaddRS =>
    let (b, s) := nextByte s
    .ok ({ plain opcode .iaddRS true with shift := (b >>> 2) % 4 }, s)
  | .imulR => .ok (plain opcode .imulR true, s)
  | .irorC => do
    let (imm32, s) ← ended (drawRotation s)
    .ok ({ plain opcode .irorC false with imm32 }, s)
  | .iaddC7 | .iaddC8 | .iaddC9 =>
    let (imm32, s) := nextWord s
    .ok ({ plain opcode .iaddC7 false with imm32 }, s)
  | .ixorC7 | .ixorC8 | .ixorC9 =>
    let (imm32, s) := nextWord s
    .ok ({ plain opcode .ixorC7 false with imm32 }, s)
  | .imulhR | .ismulhR =>
    let (w, s) := nextWord s
    .ok ({ plain opcode opcode false with operand := .draw w, mayReuseSource := true }, s)
  | .imulRcp => do
    let (imm32, s) ← ended (drawDivisor s)
    .ok ({ plain opcode .imulRcp false with imm32 }, s)

/-- Draws one of two operations. -/
def drawOf (a b : Opcode) (s : σ) : Opcode × σ :=
  let (x, s) := nextByte s
  (if x &&& 1 = 0 then a else b, s)

/-- The operation for a slot, by its length. The last slot of three bytes may also take a wide multiplication, and
`multiplies` marks the slots of four bytes that are kept for multiplications. -/
def opcodeForSlot (length : Nat) (isLast multiplies : Bool) (s : σ) : Opcode × σ :=
  match length with
  | 3 =>
    if isLast then
      let (x, s) := nextByte s
      match (x &&& 3).toNat with
      | 0 => (.isubR, s)
      | 1 => (.ixorR, s)
      | 2 => (.imulhR, s)
      | _ => (.ismulhR, s)
    else drawOf .isubR .ixorR s
  | 4 => if multiplies then (.imulR, s) else drawOf .irorC .iaddRS s
  | 7 => drawOf .ixorC7 .iaddC7 s
  | 8 => drawOf .ixorC8 .iaddC8 s
  | 9 => drawOf .ixorC9 .iaddC9 s
  | _ => (.imulRcp, s)

def forSlot (length : Nat) (isLast multiplies : Bool) (s : σ) : Except Error (Candidate × σ) :=
  let (opcode, s) := opcodeForSlot length isLast multiplies s
  create opcode s

/-! ## Registers -/

/-- The registers whose values are ready in a cycle. -/
def readySources (registers : RegisterStates) (cycle : Nat) : List Reg :=
  Reg.all.filter fun r => (registers.get r).ready ≤ cycle

/-- Chooses the source. A scaled addition that finds only two registers, one of them r5, takes r5, which cannot be its
destination. -/
def selectSource (c : Candidate) (registers : RegisterStates) (cycle : Nat) (s : σ) : Option Candidate × σ :=
  let ready := readySources registers cycle
  if ready.length == 2 && c.opcode == .iaddRS && ready.contains .r5 then
    (some { c with src := some .r5, operand := .source .r5 }, s)
  else
    let (picked, s) := pickRegister ready s
    (picked.map fun r => { c with src := some r, operand := if c.operandIsSource then .source r else c.operand }, s)

/-- Whether a register can be the destination: it is ready, not the source unless that may be reused, no multiplication
of a product unless `chained`, not last written by an operation that this one would merge with, and not r5 for a
scaled addition. -/
def admits (c : Candidate) (chained : Bool) (state : RegisterState) (cycle : Nat) (r : Reg) : Bool :=
  decide (state.ready ≤ cycle)
    && (c.mayReuseSource || c.src != some r)
    && (chained || c.group != .imulR || state.group != some .imulR)
    && (state.group != some c.group || state.operand != c.operand)
    && (c.opcode != .iaddRS || r != .r5)

def selectDestination (c : Candidate) (chained : Bool) (registers : RegisterStates) (cycle : Nat) (s : σ) :
    Option Candidate × σ :=
  let (picked, s) := pickRegister (Reg.all.filter fun r => c.admits chained (registers.get r) cycle r) s
  (picked.map fun r => { c with dst := some r }, s)

/-! ## Completion -/

def immediate (c : Candidate) : Except Error UInt64 :=
  match c.opcode with
  | .iaddRS => .ok c.shift.toUInt64
  | .irorC => .ok c.imm32.toUInt64
  | .imulRcp => reciprocal c.imm32
  | .iaddC7 | .iaddC8 | .iaddC9 | .ixorC7 | .ixorC8 | .ixorC9 => .ok (signExtend c.imm32)
  | _ => .ok 0

/-- The finished instruction, if a destination was chosen. Without a source it names its destination twice. -/
def finish (c : Candidate) : Except Error (Option Instruction) :=
  match c.dst with
  | none => .ok none
  | some dst => do
    let imm ← c.immediate
    .ok (some ⟨c.opcode, dst, c.src.getD dst, imm⟩)

end Candidate

end RandomX.Superscalar
