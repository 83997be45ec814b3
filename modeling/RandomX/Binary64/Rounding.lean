import RandomX.Binary64.Basic

/-!
# Rounding

The double that stands for `n * 2 ^ q` in each of the four directions. Patterns of one sign ascend with their values,
so a carry out of the significand and the step to infinity need no case of their own.
-/
namespace RandomX

/-- The direction in which inexact results are rounded. -/
inductive Rounding where
  /-- To the nearest number, a tie to the even one. -/
  | nearest
  /-- Toward negative infinity. -/
  | down
  /-- Toward positive infinity. -/
  | up
  /-- Toward zero. -/
  | zero
  deriving DecidableEq, Inhabited

namespace Rounding

/-- The direction that the two low bits of a word encode. -/
def ofWord (w : UInt64) : Rounding :=
  match (w &&& 3).toNat with
  | 0 => nearest
  | 1 => down
  | 2 => up
  | _ => zero

def name : Rounding → String
  | nearest => "nearest"
  | down => "down"
  | up => "up"
  | zero => "zero"

/-- Whether a magnitude between `kept` and `kept + 1` goes to the greater one. It lies `rest` above `kept`, where
`half` is half of the way. -/
@[inline] def awayFromZero (mode : Rounding) (negative : Bool) (kept rest half : UInt64) : Bool :=
  match mode with
  | nearest => half < rest || (half == rest && kept &&& 1 == 1)
  | down => negative && rest != 0
  | up => !negative && rest != 0
  | zero => false

/-- Whether a magnitude beyond the greatest finite number becomes infinite. -/
def overflows (mode : Rounding) (negative : Bool) : Bool :=
  match mode with
  | nearest => true
  | down => negative
  | up => !negative
  | zero => false

end Rounding

namespace Binary64

/-! ## Magnitudes -/

/-- The exponent of the last bit that a magnitude keeps: 53 bits, or fewer at the lower end of the range. -/
@[inline] def lastExponent (n : UInt64) (q : Int) : Int :=
  max (q + n.log2.toNat - 52) leastExponent

/-- The pattern of a significand up to `2 ^ 53` at an exponent. The greatest one gives the next binade. -/
@[inline] def pattern (significand : UInt64) (exponent : Int) : UInt64 :=
  ((exponent - leastExponent).toNat.toUInt64 <<< 52) + significand

/-- The quotient of a magnitude and `2 ^ shift`, rounded to a whole number. From 63 on, all shifts of magnitudes below
`2 ^ 62` give the same. -/
@[inline] def shiftRounded (mode : Rounding) (negative : Bool) (n : UInt64) (shift : Nat) : UInt64 :=
  if shift = 0 then n
  else
    let s := (min shift 63).toUInt64
    let kept := n >>> s
    let rest := n - (kept <<< s)
    if mode.awayFromZero negative kept rest (1 <<< (s - 1)) then kept + 1 else kept

/-! ## Results -/

/-- The result beyond the greatest finite number. -/
def overflow (mode : Rounding) (negative : Bool) : Binary64 :=
  if mode.overflows negative then infinity negative else ofParts negative (infinityBits - 1)

/-- The double for `n * 2 ^ q` with a sign, for `n` below `2 ^ 62`. -/
def round (mode : Rounding) (negative : Bool) (n : UInt64) (q : Int) : Binary64 :=
  if n = 0 then zero negative
  else
    let last := lastExponent n q
    if greatestExponent < last then overflow mode negative
    else if last ≤ q then ofParts negative (pattern (n <<< (q - last).toNat.toUInt64) last)
    else ofParts negative (pattern (shiftRounded mode negative n (last - q).toNat) last)

/-- The double equal to a signed 32-bit integer. -/
def ofInt32 (w : UInt32) : Binary64 :=
  if w < 0x80000000 then round .nearest false w.toUInt64 0 else round .nearest true (0 - w).toUInt64 0

end Binary64

end RandomX
