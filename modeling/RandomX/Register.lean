/-!
# Register names

The eight integer registers and the four registers of a floating-point group.
-/
namespace RandomX

/-- An integer register, also a column of a cache line. -/
inductive Reg where
  | r0 | r1 | r2 | r3 | r4 | r5 | r6 | r7
  deriving DecidableEq, Inhabited

namespace Reg

/-- The register with the given number modulo eight. -/
def ofIndex (n : Nat) : Reg :=
  match n % 8 with
  | 0 => r0
  | 1 => r1
  | 2 => r2
  | 3 => r3
  | 4 => r4
  | 5 => r5
  | 6 => r6
  | _ => r7

/-- The register named by a byte of code, taken modulo eight. -/
@[inline] def ofByte (b : UInt8) : Reg :=
  ofIndex b.toNat

def index : Reg → Nat
  | r0 => 0
  | r1 => 1
  | r2 => 2
  | r3 => 3
  | r4 => 4
  | r5 => 5
  | r6 => 6
  | r7 => 7

theorem index_lt (r : Reg) : r.index < 8 := by
  cases r <;> decide

@[inline] def toFin (r : Reg) : Fin 8 :=
  ⟨r.index, r.index_lt⟩

@[simp] theorem ofIndex_index (r : Reg) : ofIndex r.index = r := by
  cases r <;> rfl

theorem index_ofIndex (n : Nat) : (ofIndex n).index = n % 8 := by
  have h : n % 8 < 8 := Nat.mod_lt _ (by decide)
  unfold ofIndex
  generalize n % 8 = m at h
  match m, h with
  | 0, _ | 1, _ | 2, _ | 3, _ | 4, _ | 5, _ | 6, _ | 7, _ => rfl

theorem ofIndex_mod (n : Nat) : ofIndex (n % 8) = ofIndex n := by
  simp only [ofIndex, Nat.mod_mod]

def all : List Reg :=
  [r0, r1, r2, r3, r4, r5, r6, r7]

theorem mem_all (r : Reg) : r ∈ all := by
  cases r <;> decide

end Reg

/-! ## Maps -/

/-- A value for each integer register. -/
abbrev RegMap (α : Type) := Vector α 8

namespace RegMap

variable {α : Type}

def constant (x : α) : RegMap α :=
  Vector.replicate 8 x

@[inline] def get (t : RegMap α) (r : Reg) : α :=
  Vector.get t r.toFin

@[inline] def set (t : RegMap α) (r : Reg) (x : α) : RegMap α :=
  Vector.set t r.index x r.index_lt

variable (t : RegMap α) (r s : Reg) (x : α)

@[simp] theorem get_constant : (constant x).get r = x :=
  Vector.getElem_replicate r.index_lt

@[simp] theorem get_set_self : (t.set r x).get r = x :=
  Vector.getElem_set_self r.index_lt

@[simp] theorem get_set_of_ne (h : s ≠ r) : (t.set r x).get s = t.get s := by
  have hne : r.index ≠ s.index := fun hi => h (by rw [← Reg.ofIndex_index s, ← hi, Reg.ofIndex_index])
  exact Vector.getElem_set_ne r.index_lt s.index_lt hne

end RegMap

/-! ## Floating-point registers -/

/-- A register of one of the floating-point groups. -/
inductive FloatReg where
  | x0 | x1 | x2 | x3
  deriving DecidableEq, Inhabited

namespace FloatReg

/-- The register with the given number modulo four. -/
def ofIndex (n : Nat) : FloatReg :=
  match n % 4 with
  | 0 => x0
  | 1 => x1
  | 2 => x2
  | _ => x3

def index : FloatReg → Nat
  | x0 => 0
  | x1 => 1
  | x2 => 2
  | x3 => 3

theorem ofIndex_mod (n : Nat) : ofIndex (n % 4) = ofIndex n := by
  simp only [ofIndex, Nat.mod_mod]

end FloatReg

/-- The floating-point register that an integer register's number names modulo four. -/
def Reg.toFloat : Reg → FloatReg
  | r0 | r4 => .x0
  | r1 | r5 => .x1
  | r2 | r6 => .x2
  | r3 | r7 => .x3

theorem Reg.toFloat_ofIndex (n : Nat) : (Reg.ofIndex n).toFloat = .ofIndex n := by
  have h4 : n % 4 = n % 8 % 4 := (Nat.mod_mod_of_dvd n (by decide)).symm
  have h8 : n % 8 < 8 := Nat.mod_lt n (by decide)
  rw [ofIndex, FloatReg.ofIndex, h4]
  generalize n % 8 = m at h8
  match m, h8 with
  | 0, _ | 1, _ | 2, _ | 3, _ | 4, _ | 5, _ | 6, _ | 7, _ => rfl

end RandomX
