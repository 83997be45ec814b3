/-!
# Doubles

A double is its bit pattern. A finite one has the value of its significand times two to its exponent, with its sign.
-/
namespace RandomX

/-- A double-precision number as its pattern of sign, exponent field and fraction. -/
structure Binary64 where
  bits : UInt64
  deriving DecidableEq, Inhabited

namespace Binary64

/-! ## Parts -/

/-- The bits of the fraction. -/
def fractionMask : UInt64 :=
  0xFFFFFFFFFFFFF

/-- The bits of the exponent field, once they are shifted down. -/
def exponentFieldMask : UInt64 :=
  0x7FF

@[inline] def isNegative (x : Binary64) : Bool :=
  x.bits >>> 63 != 0

@[inline] def exponentField (x : Binary64) : UInt64 :=
  (x.bits >>> 52) &&& exponentFieldMask

@[inline] def fraction (x : Binary64) : UInt64 :=
  x.bits &&& fractionMask

@[inline] def isFinite (x : Binary64) : Bool :=
  x.exponentField != exponentFieldMask

@[inline] def isNaN (x : Binary64) : Bool :=
  x.exponentField == exponentFieldMask && x.fraction != 0

@[inline] def isInfinite (x : Binary64) : Bool :=
  x.exponentField == exponentFieldMask && x.fraction == 0

@[inline] def isZero (x : Binary64) : Bool :=
  x.exponentField == 0 && x.fraction == 0

/-- The least exponent of a finite number. -/
def leastExponent : Int :=
  -1074

def greatestExponent : Int :=
  971

/-- The bit that the exponent field of a normal number implies. -/
def leadingBit : UInt64 :=
  0x10000000000000

/-- The fraction with the leading bit, if the number has one. -/
@[inline] def significand (x : Binary64) : UInt64 :=
  if x.exponentField = 0 then x.fraction else x.fraction + leadingBit

/-- The exponent of the last bit of the significand. -/
@[inline] def exponent (x : Binary64) : Int :=
  if x.exponentField = 0 then leastExponent else leastExponent + x.exponentField.toNat - 1

/-! ## Particular values -/

/-- The pattern with the given sign and the other bits of a magnitude. -/
@[inline] def ofParts (negative : Bool) (magnitude : UInt64) : Binary64 :=
  ⟨if negative then magnitude ||| 0x8000000000000000 else magnitude⟩

/-- The pattern of infinity, which follows that of the greatest finite number. -/
def infinityBits : UInt64 :=
  0x7FF0000000000000

def zero (negative : Bool) : Binary64 :=
  ofParts negative 0

def infinity (negative : Bool) : Binary64 :=
  ofParts negative infinityBits

/-- The one result of every invalid operation. -/
def nan : Binary64 :=
  ⟨0x7FF8000000000000⟩

@[inline] def negate (x : Binary64) : Binary64 :=
  ⟨x.bits ^^^ 0x8000000000000000⟩

/-! ## Neighbours -/

/-- The least number above. Both zeros are followed by the least positive number, and infinity by itself. -/
def nextUp (x : Binary64) : Binary64 :=
  if x.isNaN || x == infinity false then x
  else if x.isZero then ⟨1⟩
  else if x.isNegative then ⟨x.bits - 1⟩
  else ⟨x.bits + 1⟩

/-- The greatest number below. -/
def nextDown (x : Binary64) : Binary64 :=
  x.negate.nextUp.negate

end Binary64

end RandomX
