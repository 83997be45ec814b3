import RandomX.Superscalar.Buffer
import RandomX.Superscalar.Candidate
import RandomX.Superscalar.PortMap

/-!
# Generation

A program is built by running a model of a processor: buffers are decoded one a cycle, each slot draws a candidate, and
its macro-operations issue when ports and registers allow it. The builder is a machine of small steps, so that what
holds of every step holds of every program.
-/
namespace RandomX.Superscalar

/-- Cycles by which an operand may be late. -/
def lookForward : Nat :=
  4

/-- Candidates that may be thrown away for one macro-operation. -/
def maxThrowaways : Nat :=
  256

/-- Where the builder stands. -/
inductive Phase where
  /-- Before the next buffer. -/
  | decode
  /-- In a buffer, with the lengths of the slots that are left. -/
  | issue (shape : Shape) (slots : List Nat)
  | done
  deriving DecidableEq, Inhabited

structure Builder (σ : Type) where
  phase : Phase
  /-- Buffers decoded so far. -/
  decodeCycle : Nat
  /-- The cycle from which macro-operations are scheduled. -/
  cycle : Nat
  /-- The cycle at which the last macro-operation is done. -/
  dependency : Nat
  ports : PortMap
  registers : RegisterStates
  program : Array Instruction
  /-- The last candidate, which may be finished or thrown away. -/
  current : Option Candidate
  /-- The next macro-operation of the candidate. -/
  opIndex : Nat
  multiplications : Nat
  throwaways : Nat
  /-- No port was found in time. -/
  isSaturated : Bool
  stream : σ

namespace Builder

variable {σ : Type}

def start (s : σ) : Builder σ where
  phase := .decode
  decodeCycle := 0
  cycle := 0
  dependency := 0
  ports := .empty
  registers := .constant ⟨0, none, .none⟩
  program := #[]
  current := none
  opIndex := 0
  multiplications := 0
  throwaways := 0
  isSaturated := false
  stream := s

def opCount : Option Candidate → Nat
  | none => 0
  | some c => c.opcode.recipe.ops.length

/-- The candidate has no macro-operation left. -/
def isIdle (b : Builder σ) : Bool :=
  opCount b.current ≤ b.opIndex

/-- Room for more: the model has free ports and the program is not full. -/
def hasRoom (b : Builder σ) : Bool :=
  !b.isSaturated && b.program.size < superscalarMaxSize

def closeBuffer (b : Builder σ) : Builder σ :=
  { b with phase := .decode, cycle := b.cycle + 1, decodeCycle := b.decodeCycle + 1 }

/-- Gives up the candidate that finds no operand: it is thrown away and the slot tried again, or, after too many of
them, the buffer is left. -/
def stall (b : Builder σ) : Builder σ :=
  if b.throwaways < maxThrowaways then
    { b with throwaways := b.throwaways + 1, opIndex := opCount b.current }
  else closeBuffer { b with current := none }

/-- Tries a selection in up to `n` cycles from `cycle` on. Returns the chosen candidate, the number of cycles that
passed, and the rest of the stream. -/
def selectWithin (select : Nat → σ → Option Candidate × σ) : (n : Nat) → (cycle : Nat) → σ →
    Option Candidate × Nat × σ
  | 0, _, s => (none, 0, s)
  | n + 1, cycle, s =>
    match select cycle s with
    | (some c, s) => (some c, 0, s)
    | (none, s) =>
      let (c, passed, s) := selectWithin select n (cycle + 1) s
      (c, passed + 1, s)

/-- Records what a result does to its register. -/
def recordResult (registers : RegisterStates) (c : Candidate) (ready : Nat) : RegisterStates :=
  match c.dst with
  | none => registers
  | some r => registers.set r ⟨ready, some c.group, c.operand⟩

def complete (b : Builder σ) (c : Candidate) : Except Error (Builder σ) := do
  match ← c.finish with
  | none => return b
  | some i =>
    return { b with
      program := b.program.push i
      multiplications := if i.opcode.isMultiplication then b.multiplications + 1 else b.multiplications }

/-- Issues a macro-operation whose operands are chosen, not before `cycle`. `top` is the cycle to which the builder
returns. -/
def commit (b : Builder σ) (c : Candidate) (op : MacroOp) (shape : Shape) (slots : List Nat) (top cycle : Nat) :
    Except Error (Builder σ) := do
  let b := { b with throwaways := 0, current := some c }
  match b.ports.schedule op cycle cycle with
  | none => return closeBuffer { b with isSaturated := true }
  | some issued =>
    let ready := issued + op.latency
    let recipe := c.opcode.recipe
    let b' := { b with
      phase := .issue shape slots
      ports := b.ports.commit op.issue issued
      dependency := ready
      registers := if recipe.resultOp = b.opIndex then recordResult b.registers c ready else b.registers
      opIndex := b.opIndex + 1
      isSaturated := b.isSaturated || superscalarLatency ≤ issued
      cycle := top }
    if recipe.ops.length ≤ b'.opIndex then complete b' c else return b'

variable [EntropyStream σ]

/-- Chooses the source if the next macro-operation is the one at which it is chosen. Returns the candidate, the number of
cycles that passed, and the rest of the stream. -/
def chooseSource (b : Builder σ) (c : Candidate) (cycle : Nat) : Option Candidate × Nat × σ :=
  if c.opcode.recipe.srcOp = some b.opIndex then
    selectWithin (c.selectSource b.registers) lookForward cycle b.stream
  else (some c, 0, b.stream)

/-- Chooses the destination if the next macro-operation is the one at which it is chosen. -/
def chooseDestination (b : Builder σ) (c : Candidate) (cycle : Nat) : Option Candidate × Nat × σ :=
  if c.opcode.recipe.dstOp = b.opIndex then
    selectWithin (c.selectDestination (0 < b.throwaways) b.registers) lookForward cycle b.stream
  else (some c, 0, b.stream)

def wait (b : Builder σ) (waited : Nat) (s : σ) : Builder σ :=
  { b with cycle := b.cycle + waited, stream := s }

/-- Chooses the destination of a macro-operation whose source is chosen, then issues it. -/
def placeOp (b : Builder σ) (c : Candidate) (op : MacroOp) (shape : Shape) (slots : List Nat) (top cycle : Nat) :
    Except Error (Builder σ) :=
  match chooseDestination b c cycle with
  | (none, waited, s) => .ok (b.wait waited s).stall
  | (some c, waited, s) => (b.wait waited s).commit c op shape slots top (cycle + waited)

/-- Chooses the operands that the next macro-operation needs, then issues it. -/
def issueOp (b : Builder σ) (c : Candidate) (shape : Shape) (slots : List Nat) : Except Error (Builder σ) :=
  match c.opcode.recipe.ops[b.opIndex]? with
  | none => .error .outOfBounds
  | some op =>
    match b.ports.schedule op b.cycle b.dependency with
    | none => .ok (closeBuffer { b with isSaturated := true })
    | some cycle =>
      match chooseSource b c cycle with
      | (none, waited, s) => .ok (b.wait waited s).stall
      | (some c, waited, s) =>
        placeOp { b.wait waited s with current := some c } c op shape slots b.cycle (cycle + waited)

/-- One pass over the slot of a length: a candidate is drawn if none is pending, and one macro-operation is tried. -/
def pass (b : Builder σ) (shape : Shape) (length : Nat) (rest : List Nat) : Except Error (Builder σ) := do
  if b.isIdle then
    if b.hasRoom then
      let (c, s) ← Candidate.forSlot length rest.isEmpty (shape == .d4444 && !rest.isEmpty) b.stream
      issueOp { b with current := some c, opIndex := 0, stream := s } c shape rest
    else return b.closeBuffer
  else
    match b.current with
    | none => throw .outOfBounds
    | some c => issueOp b c shape rest

def step (b : Builder σ) : Except Error (Builder σ) :=
  match b.phase with
  | .done => .ok b
  | .decode =>
    if b.decodeCycle < superscalarLatency && b.hasRoom then
      let (shape, s) := Shape.next (b.current.map (·.opcode)) b.decodeCycle b.multiplications b.stream
      .ok { b with phase := .issue shape shape.lengths, stream := s }
    else .ok { b with phase := .done }
  | .issue _ [] => .ok b.closeBuffer
  | .issue shape (length :: rest) => b.pass shape length rest

def run : (limit : Nat) → Builder σ → Except Error (Builder σ)
  | 0, _ => .error .stepLimit
  | n + 1, b => if b.phase = .done then .ok b else do run n (← b.step)

/-- More steps than any builder takes: in each cycle two steps for the buffer itself, and for each of its at most four
slots one issue and all throw-aways. -/
def stepLimit : Nat :=
  superscalarLatency * (2 + 4 * (maxThrowaways + 1)) + 2

end Builder

/-! ## Programs -/

/-- The longest chain that ends in each register. An instruction extends the longer one of its operands' chains. -/
def chainLengths (program : Array Instruction) : RegMap Nat :=
  program.foldl (fun lengths i =>
    let ofDst := lengths.get i.dst + 1
    let ofSrc := if i.dst ≠ i.src then lengths.get i.src + 1 else 0
    lengths.set i.dst (max ofDst ofSrc)) (.constant 0)

/-- The lowest register whose chain is the longest. -/
def longestChain (program : Array Instruction) : Reg :=
  let lengths := chainLengths program
  (Reg.all.foldl (fun (best, reg) r =>
    if best < lengths.get r then (lengths.get r, r) else (best, reg)) (0, Reg.r0)).2

namespace Program

def generate {σ : Type} [EntropyStream σ] (s : σ) : Except Error (Program × σ) := do
  let b ← Builder.run Builder.stepLimit (.start s)
  return (⟨b.program, longestChain b.program⟩, b.stream)

end Program

end RandomX.Superscalar
