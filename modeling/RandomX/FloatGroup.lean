import RandomX.Binary64.Arithmetic
import RandomX.Binary64.Masks
import RandomX.Line

/-!
# Floating-point registers

Pairs of doubles, and the groups of four of them.
-/
namespace RandomX

/-- A floating-point register: two doubles, the low lane first. -/
structure FloatPair where
  (lo hi : Binary64)
  deriving DecidableEq, Inhabited

/-- The exponent masks of the two lanes. -/
structure LaneMasks where
  (lo hi : UInt64)
  deriving DecidableEq, Inhabited

namespace FloatPair

def zero : FloatPair :=
  ⟨⟨0⟩, ⟨0⟩⟩

@[inline] def map (f : Binary64 → Binary64) (x : FloatPair) : FloatPair :=
  ⟨f x.lo, f x.hi⟩

@[inline] def map₂ (f : Binary64 → Binary64 → Binary64) (x y : FloatPair) : FloatPair :=
  ⟨f x.lo y.lo, f x.hi y.hi⟩

@[inline] def swap (x : FloatPair) : FloatPair :=
  ⟨x.hi, x.lo⟩

/-- Sets the mask of each lane. -/
@[inline] def masked (x : FloatPair) (m : LaneMasks) : FloatPair :=
  ⟨x.lo.masked m.lo, x.hi.masked m.hi⟩

@[inline] def xor (x y : FloatPair) : FloatPair :=
  x.map₂ (fun a b => ⟨a.bits ^^^ b.bits⟩) y

end FloatPair

structure FloatGroup where
  (x0 x1 x2 x3 : FloatPair)
  deriving DecidableEq, Inhabited

namespace FloatGroup

def zero : FloatGroup :=
  ⟨.zero, .zero, .zero, .zero⟩

@[inline] def get (g : FloatGroup) : FloatReg → FloatPair
  | .x0 => g.x0
  | .x1 => g.x1
  | .x2 => g.x2
  | .x3 => g.x3

@[inline] def set (g : FloatGroup) (r : FloatReg) (v : FloatPair) : FloatGroup :=
  match r with
  | .x0 => { g with x0 := v }
  | .x1 => { g with x1 := v }
  | .x2 => { g with x2 := v }
  | .x3 => { g with x3 := v }

@[inline] def map (f : FloatPair → FloatPair) (g : FloatGroup) : FloatGroup :=
  ⟨f g.x0, f g.x1, f g.x2, f g.x3⟩

def xor (g h : FloatGroup) : FloatGroup :=
  ⟨g.x0.xor h.x0, g.x1.xor h.x1, g.x2.xor h.x2, g.x3.xor h.x3⟩

def toList (g : FloatGroup) : List FloatPair :=
  [g.x0, g.x1, g.x2, g.x3]

/-- The patterns of all lanes, register by register with the low lane first. -/
def toLine (g : FloatGroup) : Line :=
  ⟨g.x0.lo.bits, g.x0.hi.bits, g.x1.lo.bits, g.x1.hi.bits,
   g.x2.lo.bits, g.x2.hi.bits, g.x3.lo.bits, g.x3.hi.bits⟩

/-! ## Laws -/

variable (g : FloatGroup) (r s : FloatReg) (v : FloatPair)

@[simp] theorem get_set_self : (g.set r v).get r = v := by
  cases r <;> rfl

@[simp] theorem get_set_of_ne (h : s ≠ r) : (g.set r v).get s = g.get s := by
  cases r <;> cases s <;> first | rfl | exact absurd rfl h

end FloatGroup

end RandomX
