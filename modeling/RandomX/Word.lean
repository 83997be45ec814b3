import RandomX.Error

/-!
# Words

Rotations, high products, sign extension and reciprocals of 64-bit words. A reciprocal is the quotient of the greatest
power of two by a divisor that still fits a word.
-/
namespace RandomX

/-! ## Rotation -/

/-- Rotates right by the count modulo 64. -/
@[inline] def rotateRight (x n : UInt64) : UInt64 :=
  (x >>> n) ||| (x <<< (64 - n))

/-- Rotates left by the count modulo 64. -/
@[inline] def rotateLeft (x n : UInt64) : UInt64 :=
  (x <<< n) ||| (x >>> (64 - n))

/-! ## Products -/

/-- The high 64 bits of the unsigned 128-bit product, from four products of halves. -/
@[inline] def mulHigh (a b : UInt64) : UInt64 :=
  let aLow := a &&& 0xFFFFFFFF
  let aHigh := a >>> 32
  let bLow := b &&& 0xFFFFFFFF
  let bHigh := b >>> 32
  let cross := aHigh * bLow + ((aLow * bLow) >>> 32)
  let middle := aLow * bHigh + (cross &&& 0xFFFFFFFF)
  aHigh * bHigh + (cross >>> 32) + (middle >>> 32)

/-- The high 64 bits of the signed 128-bit product: a negative factor reads as itself plus `2^64`, so the
other factor is taken off once for it. -/
@[inline] def mulHighSigned (a b : UInt64) : UInt64 :=
  mulHigh a b - (if a >>> 63 = 0 then 0 else b) - (if b >>> 63 = 0 then 0 else a)

/-- Extends a 32-bit immediate by its sign. -/
@[inline] def signExtend (imm : UInt32) : UInt64 :=
  imm.toInt32.toInt64.toUInt64

/-! ## Reciprocals -/

/-- Zero and the powers of two have no reciprocal. -/
@[inline] def isDivisor (d : UInt32) : Bool :=
  d != 0 && d &&& (d - 1) != 0

/-- `2 ^ (63 + s) / d`, where `s` is the bit length of `d`: the quotient of `2 ^ 63`, carried on by `s` bits. -/
def reciprocalWord (d : UInt32) : UInt64 :=
  let d := d.toUInt64
  let quotient := 0x8000000000000000 / d
  let remainder := 0x8000000000000000 % d
  let shift := d.log2 + 1
  (quotient <<< shift) + (remainder <<< shift) / d

def reciprocal (d : UInt32) : Except Error UInt64 :=
  if isDivisor d then .ok (reciprocalWord d) else .error .invalidDivisor

end RandomX
