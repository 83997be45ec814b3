import RandomX.Parameters
import RandomX.Superscalar.MacroOp

/-!
# Port map

Which micro-operation has taken each port in each cycle, and the search for the first cycle at which a macro-operation
can issue.
-/
namespace RandomX.Superscalar

/-- The cycles that the port map covers. -/
def mapCycles : Nat :=
  superscalarLatency + 4

structure PortRow where
  (p0 p1 p5 : Option MicroOp)
  deriving DecidableEq, Inhabited

namespace PortRow

def empty : PortRow :=
  ⟨none, none, none⟩

def get (row : PortRow) : Port → Option MicroOp
  | .p0 => row.p0
  | .p1 => row.p1
  | .p5 => row.p5

def set (row : PortRow) (port : Port) (op : MicroOp) : PortRow :=
  match port with
  | .p0 => { row with p0 := some op }
  | .p1 => { row with p1 := some op }
  | .p5 => { row with p5 := some op }

/-- The port that a micro-operation would take: port 5 before port 0 before port 1. -/
def freePort? (row : PortRow) (op : MicroOp) : Option Port :=
  [Port.p5, Port.p0, Port.p1].find? fun port => op.permits port && (row.get port).isNone

end PortRow

abbrev PortMap := Vector PortRow mapCycles

namespace PortMap

def empty : PortMap :=
  Vector.replicate mapCycles .empty

/-- The port that a micro-operation would take in a cycle. -/
def freePort? (map : PortMap) (op : MicroOp) (cycle : Nat) : Option Port :=
  map[cycle]?.bind fun row => row.freePort? op

/-- The first of `n` cycles from `cycle` on that has a port for a micro-operation. -/
def firstFree (map : PortMap) (op : MicroOp) : (n : Nat) → (cycle : Nat) → Option Nat
  | 0, _ => none
  | n + 1, cycle => if (map.freePort? op cycle).isSome then some cycle else firstFree map op n (cycle + 1)

def earliest (map : PortMap) (op : MicroOp) (cycle : Nat) : Option Nat :=
  firstFree map op (mapCycles - cycle) cycle

/-- Lets a micro-operation take its port in a cycle. -/
def take (map : PortMap) (op : MicroOp) (cycle : Nat) : PortMap :=
  if h : cycle < mapCycles then
    match map[cycle].freePort? op with
    | some port => map.set cycle (map[cycle].set port op)
    | none => map
  else map

/-- The first of `n` cycles from `cycle` on at which the earliest cycles of two micro-operations coincide. -/
def firstCommon (map : PortMap) (a b : MicroOp) : (n : Nat) → (cycle : Nat) → Option Nat
  | 0, _ => none
  | n + 1, cycle =>
    match map.earliest a cycle, map.earliest b cycle with
    | some x, some y => if x = y then some x else firstCommon map a b n (cycle + 1)
    | _, _ => firstCommon map a b n (cycle + 1)

/-- The cycle at which a macro-operation issues, not before `cycle`. -/
def issueCycle (map : PortMap) (issue : Issue) (cycle : Nat) : Option Nat :=
  match issue with
  | .eliminated => some cycle
  | .simple op => map.earliest op cycle
  | .pair a b => map.firstCommon a b (mapCycles - cycle) cycle

/-- The cycle at which a macro-operation issues, given the cycle at which the one before it is done. -/
def schedule (map : PortMap) (op : MacroOp) (cycle dependency : Nat) : Option Nat :=
  map.issueCycle op.issue (if op.isDependent then max cycle dependency else cycle)

def commit (map : PortMap) (issue : Issue) (cycle : Nat) : PortMap :=
  match issue with
  | .eliminated => map
  | .simple op => map.take op cycle
  | .pair a b => (map.take a cycle).take b cycle

end PortMap

end RandomX.Superscalar
