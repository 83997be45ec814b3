import RandomX.Bytes
import RandomX.FloatGroup

/-!
# Register file

The integer registers, the three groups of floating-point registers, and the rounding mode.
-/
namespace RandomX

structure RegisterFile where
  r : Line
  /-- The additive group. -/
  f : FloatGroup
  /-- The multiplicative group. -/
  e : FloatGroup
  /-- The constant group. -/
  a : FloatGroup
  rounding : Rounding
  deriving DecidableEq, Inhabited

namespace RegisterFile

/-- Zeros everywhere, with a rounding mode. -/
def blank (rounding : Rounding) : RegisterFile :=
  ⟨.zero, .zero, .zero, .zero, rounding⟩

/-- Zeroes every register and keeps the rounding mode. -/
def clear (reg : RegisterFile) : RegisterFile :=
  blank reg.rounding

/-- The words of the integer registers, then those of the groups. -/
def words (reg : RegisterFile) : List UInt64 :=
  reg.r.toList ++ reg.f.toLine.toList ++ reg.e.toLine.toList ++ reg.a.toLine.toList

def toBytes (reg : RegisterFile) : ByteArray :=
  bytesOfWords reg.words

end RegisterFile

end RandomX
