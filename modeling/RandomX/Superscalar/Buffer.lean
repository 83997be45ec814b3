import RandomX.Entropy
import RandomX.Superscalar.Instruction

/-!
# Decode buffers

How sixteen bytes of code split into instructions.
-/
namespace RandomX.Superscalar

/-- The shape of a decode buffer, named for the lengths of its slots. -/
inductive Shape where
  | d484 | d7333 | d3733 | d493 | d4444 | d3310
  deriving DecidableEq, Inhabited

namespace Shape

def lengths : Shape → List Nat
  | d484 => [4, 8, 4]
  | d7333 => [7, 3, 3, 3]
  | d3733 => [3, 7, 3, 3]
  | d493 => [4, 9, 3]
  | d4444 => [4, 4, 4, 4]
  | d3310 => [3, 3, 10]

variable {σ : Type} [EntropyStream σ]

/-- The shape of the next buffer. A wide multiplication is carried on in two slots of three bytes, the multiplier is
kept busy, a reciprocal is carried on in a slot of four bytes, and otherwise the shape is drawn. -/
def next (current : Option Opcode) (cycle multiplications : Nat) (s : σ) : Shape × σ :=
  if current = some .imulhR ∨ current = some .ismulhR then (d3310, s)
  else if multiplications < cycle + 1 then (d4444, s)
  else
    let (b, s) := nextByte s
    if current = some .imulRcp then (if b &&& 1 = 1 then d484 else d493, s)
    else match (b &&& 3).toNat with
      | 0 => (d484, s)
      | 1 => (d7333, s)
      | 2 => (d3733, s)
      | _ => (d493, s)

end Shape

end RandomX.Superscalar
