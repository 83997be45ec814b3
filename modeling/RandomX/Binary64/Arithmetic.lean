import RandomX.Binary64.Rounding
import RandomX.Word

/-!
# Arithmetic

Each operation forms its exact result, or one so close to it that both round alike, and rounds once. Where bits are
dropped, an odd last bit stands for all that lies between its two even neighbours.
-/
namespace RandomX.Binary64

/-- Doubles a whole number and makes it odd if something was dropped below it. -/
@[inline] def withSticky (n : UInt64) (exact : Bool) : UInt64 :=
  if exact then 2 * n else 2 * n + 1

/-! ## Sums -/

/-- The sum of two magnitudes at one exponent, each with a sign. A difference of zero is negative only when rounding
down. -/
@[inline] def addSigned (mode : Rounding) (s : Bool) (m : UInt64) (t : Bool) (n : UInt64) (q : Int) : Binary64 :=
  if s == t then round mode s (m + n) q
  else if n < m then round mode s (m - n) q
  else if m < n then round mode t (n - m) q
  else zero (mode == .down)

/-- The sum of finite numbers of which `y` has an exponent not above that of `x`. A significand that lies far below is
cut to half units and gets a sticky bit. -/
@[inline] def addAligned (mode : Rounding) (x y : Binary64) : Binary64 :=
  let distance := (x.exponent - y.exponent).toNat
  if distance ≤ 8 then
    addSigned mode x.isNegative (x.significand <<< distance.toUInt64) y.isNegative y.significand y.exponent
  else
    let s := (min (distance - 7) 63).toUInt64
    let kept := y.significand >>> s
    addSigned mode x.isNegative (x.significand <<< 8) y.isNegative
      (withSticky kept (kept <<< s == y.significand)) (x.exponent - 8)

def addFinite (mode : Rounding) (x y : Binary64) : Binary64 :=
  if x.exponent < y.exponent then addAligned mode y x else addAligned mode x y

def add (mode : Rounding) (x y : Binary64) : Binary64 :=
  if x.isFinite && y.isFinite then addFinite mode x y
  else if x.isNaN || y.isNaN then nan
  else if x.isInfinite then
    if y.isInfinite && x.isNegative != y.isNegative then nan else infinity x.isNegative
  else infinity y.isNegative

def sub (mode : Rounding) (x y : Binary64) : Binary64 :=
  add mode x y.negate

/-! ## Products -/

/-- The places by which the significand of a subnormal number falls short of 53 bits. -/
@[inline] def shortfall (x : Binary64) : UInt64 :=
  if x.exponentField = 0 then 52 - x.significand.log2 else 0

/-- The significand moved up to 53 bits. -/
@[inline] def fullSignificand (x : Binary64) : UInt64 :=
  x.significand <<< x.shortfall

/-- The exponent of the last bit of the full significand. -/
@[inline] def fullExponent (x : Binary64) : Int :=
  x.exponent - x.shortfall.toNat

/-- The product of finite numbers. Its significand has 105 or 106 bits, of which the low 45 become sticky. -/
def mulFinite (mode : Rounding) (negative : Bool) (x y : Binary64) : Binary64 :=
  let m := x.fullSignificand <<< 11
  let n := y.fullSignificand <<< 8
  round mode negative (withSticky (mulHigh m n) (m * n == 0)) (x.fullExponent + y.fullExponent + 44)

def mul (mode : Rounding) (x y : Binary64) : Binary64 :=
  let negative := x.isNegative != y.isNegative
  if x.isFinite && y.isFinite then mulFinite mode negative x y
  else if x.isNaN || y.isNaN || x.isZero || y.isZero then nan
  else infinity negative

/-! ## Quotients -/

/-- The quotient of finite numbers, the divisor not zero. It is taken to at least 57 bits. -/
def divFinite (mode : Rounding) (negative : Bool) (x y : Binary64) : Binary64 :=
  let n := x.fullSignificand.toNat <<< 57
  let d := y.fullSignificand.toNat
  round mode negative (withSticky (n / d).toUInt64 (n % d == 0)) (x.fullExponent - y.fullExponent - 58)

def div (mode : Rounding) (x y : Binary64) : Binary64 :=
  let negative := x.isNegative != y.isNegative
  if x.isFinite && y.isFinite then
    if !y.isZero then divFinite mode negative x y
    else if x.isZero then nan
    else infinity negative
  else if x.isNaN || y.isNaN then nan
  else if x.isInfinite then
    if y.isInfinite then nan else infinity negative
  else zero negative

/-! ## Roots -/

/-- Extends a square root by `k` bits. The square of `root` falls short by `rest` of the bits that have been used, and
`bits` holds those to come, with zeros behind them. The result has a sticky bit. -/
def extendRoot : (k : Nat) → (bits root rest : UInt64) → UInt64
  | 0, _, root, rest => withSticky root (rest == 0)
  | k + 1, bits, root, rest =>
    let rest := (rest <<< 2) ||| (bits >>> 62)
    let trial := (root <<< 2) ||| 1
    if trial ≤ rest then extendRoot k (bits <<< 2) ((root <<< 1) ||| 1) (rest - trial)
    else extendRoot k (bits <<< 2) (root <<< 1) rest

/-- The root of a positive finite number. Its significand is read as 54 bits at an even exponent: 27 of the bits of the
root come from them, and 28 from the zeros behind. -/
def sqrtFinite (mode : Rounding) (x : Binary64) : Binary64 :=
  let odd := x.fullExponent % 2 = 1
  let bits := if odd then x.fullSignificand <<< 11 else x.fullSignificand <<< 10
  let q := if odd then x.fullExponent - 1 else x.fullExponent
  round mode false (extendRoot 55 bits 0 0) (q / 2 - 29)

/-- The root rounded to the nearest number. -/
def nearestRoot (x : Binary64) : Binary64 :=
  if x.isNaN then nan
  else if x.isZero then x
  else if x.isNegative then nan
  else if x.isInfinite then x
  else sqrtFinite .nearest x

/-- How the square of a finite number compares with the magnitude of another. Both are taken without rounding. -/
def compareSquare (x y : Binary64) : Ordering :=
  compare ((x.significand.toNat * x.significand.toNat) <<< (2 * x.exponent - y.exponent).toNat)
    (y.significand.toNat <<< (y.exponent - 2 * x.exponent).toNat)

/-- Moves a root by one place if its square lies on the wrong side. -/
def correct (mode : Rounding) (square : Ordering) (root : Binary64) : Binary64 :=
  match square, mode with
  | .gt, .down | .gt, .zero => root.nextDown
  | .lt, .up => root.nextUp
  | _, _ => root

/-- The nearest root, corrected in the other directions. -/
def sqrt (mode : Rounding) (x : Binary64) : Binary64 :=
  let root := nearestRoot x
  if mode == .nearest || !root.isFinite || root.isZero then root
  else correct mode (compareSquare root x) root

end RandomX.Binary64
