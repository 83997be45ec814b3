import RandomX.Binary64.Basic

/-!
# Register patterns

The bit patterns that seed the registers of a group or keep their values in its range.
-/
namespace RandomX

/-- The fraction bits that entropy sets in a mask. -/
def lowFractionMask : UInt64 :=
  0x3FFFFF

/-- A positive double below `2 ^ 32`: the exponent from the five high bits, the fraction from the low ones. -/
def smallPositive (entropy : UInt64) : Binary64 :=
  ⟨((((entropy >>> 59) + 1023) &&& Binary64.exponentFieldMask) <<< 52) ||| (entropy &&& Binary64.fractionMask)⟩

/-- The exponent bits that are forced into a multiplicative register: a constant part and four high bits of entropy. -/
def staticExponent (entropy : UInt64) : UInt64 :=
  ((0x300 : UInt64) ||| ((entropy >>> 60) <<< 4)) <<< 52

/-- The mask of a multiplicative lane: the forced exponent bits and 22 low bits of entropy. -/
def exponentMask (entropy : UInt64) : UInt64 :=
  (entropy &&& lowFractionMask) ||| staticExponent entropy

namespace Binary64

/-- The bits of a multiplicative register that its loaded value decides. -/
def dynamicBits : UInt64 :=
  0x00FFFFFFFFFFFFFF

/-- Keeps the dynamic bits and sets those of the mask. -/
@[inline] def masked (x : Binary64) (mask : UInt64) : Binary64 :=
  ⟨(x.bits &&& dynamicBits) ||| mask⟩

/-- The sign and the exponent bits that scaling flips. -/
def scaleBits : UInt64 :=
  0x80F0000000000000

/-- Flips the sign and four bits of the exponent. -/
@[inline] def scaled (x : Binary64) : Binary64 :=
  ⟨x.bits ^^^ scaleBits⟩

end Binary64

end RandomX
