import RandomX.Register

/-!
# Lines

Eight 64-bit words: a cache line, a dataset item, or the integer registers.
-/
namespace RandomX

structure Line where
  (w0 w1 w2 w3 w4 w5 w6 w7 : UInt64)
  deriving DecidableEq, Inhabited

namespace Line

def zero : Line :=
  ⟨0, 0, 0, 0, 0, 0, 0, 0⟩

/-- The line whose column `r` is `f r`. -/
@[inline] def ofFn (f : Reg → UInt64) : Line :=
  ⟨f .r0, f .r1, f .r2, f .r3, f .r4, f .r5, f .r6, f .r7⟩

@[inline] def get (l : Line) : Reg → UInt64
  | .r0 => l.w0
  | .r1 => l.w1
  | .r2 => l.w2
  | .r3 => l.w3
  | .r4 => l.w4
  | .r5 => l.w5
  | .r6 => l.w6
  | .r7 => l.w7

@[inline] def set (l : Line) (r : Reg) (v : UInt64) : Line :=
  match r with
  | .r0 => { l with w0 := v }
  | .r1 => { l with w1 := v }
  | .r2 => { l with w2 := v }
  | .r3 => { l with w3 := v }
  | .r4 => { l with w4 := v }
  | .r5 => { l with w5 := v }
  | .r6 => { l with w6 := v }
  | .r7 => { l with w7 := v }

def xor (x y : Line) : Line :=
  ⟨x.w0 ^^^ y.w0, x.w1 ^^^ y.w1, x.w2 ^^^ y.w2, x.w3 ^^^ y.w3,
   x.w4 ^^^ y.w4, x.w5 ^^^ y.w5, x.w6 ^^^ y.w6, x.w7 ^^^ y.w7⟩

def toList (l : Line) : List UInt64 :=
  [l.w0, l.w1, l.w2, l.w3, l.w4, l.w5, l.w6, l.w7]

/-! ## Laws -/

variable (l m : Line) (r s : Reg) (v w : UInt64)

@[ext] theorem ext_get (h : ∀ r, l.get r = m.get r) : l = m := by
  cases l
  cases m
  simp only [mk.injEq]
  exact ⟨h .r0, h .r1, h .r2, h .r3, h .r4, h .r5, h .r6, h .r7⟩

@[simp] theorem get_ofFn (f : Reg → UInt64) : (ofFn f).get r = f r := by
  cases r <;> rfl

@[simp] theorem get_set_self : (l.set r v).get r = v := by
  cases r <;> rfl

@[simp] theorem get_set_of_ne (h : s ≠ r) : (l.set r v).get s = l.get s := by
  cases r <;> cases s <;> first | rfl | exact absurd rfl h

@[simp] theorem get_xor : (l.xor m).get r = l.get r ^^^ m.get r := by
  cases r <;> rfl

@[simp] theorem get_zero : zero.get r = 0 := by
  cases r <;> rfl

theorem getElem?_toList {j : Nat} (hj : j < 8) : l.toList[j]? = some (l.get (.ofIndex j)) := by
  match j, hj with
  | 0, _ | 1, _ | 2, _ | 3, _ | 4, _ | 5, _ | 6, _ | 7, _ => rfl

end Line

end RandomX
