import RandomX.Machine.Execute
import RandomX.Proofs.Scratchpad.Bounds

/-!
# One instruction

What a single instruction needs in order to run, where it goes next, which integer registers it leaves alone, and which
words of the scratchpad it touches.
-/
namespace RandomX.Program

open Outcome

/-! ## Safety -/

/-- The operand lies at an aligned word for every content of the registers. -/
def Address.IsSafe (a : Address) : Prop :=
  ∀ r : Line, IsWordAddress (a.resolve r).toNat

def Operand.IsSafe : Operand → Prop
  | memory a => a.IsSafe
  | _ => True

def FloatOperand.IsSafe : FloatOperand → Prop
  | memory a => a.IsSafe
  | _ => True

/-- No content of the registers makes the instruction leave the scratchpad or shift by more than a word is wide. -/
def Instruction.IsSafe : Instruction → Prop
  | addShifted _ _ shift _ => shift < 64
  | integer _ _ operand => operand.IsSafe
  | sum _ _ operand => operand.IsSafe
  | divide _ a => a.IsSafe
  | store _ _ _ mask => ∀ x : UInt32, IsWordAddress (x &&& mask).toNat
  | _ => True

theorem Operand.value_ok {o : Operand} (h : o.IsSafe) (r : Line) (pad : Scratchpad) :
    ∃ v, o.value r pad = .ok v := by
  cases o with
  | register _ => exact ⟨_, rfl⟩
  | immediate _ => exact ⟨_, rfl⟩
  | memory a => exact pad.load_of_le (h r).le

theorem FloatOperand.value_ok {o : FloatOperand} (h : o.IsSafe) (reg : RegisterFile) (pad : Scratchpad) :
    ∃ v, o.value reg pad = .ok v := by
  cases o with
  | register _ => exact ⟨_, rfl⟩
  | memory a => exact pad.loadPair_of_le (h reg.r).le

/-! ## Footprints -/

namespace Instruction

variable {i : Instruction} {masks : LaneMasks} {c c' : Core}

/-- The words of the scratchpad that an instruction loads or stores. -/
def touched (i : Instruction) (r : Line) : List Nat :=
  match i with
  | integer _ _ (.memory a) => [(a.resolve r).toNat]
  | sum _ _ (.memory a) => [(a.resolve r).toNat]
  | divide _ a => [(a.resolve r).toNat]
  | store dst _ imm mask => [((r.get dst + imm).toUInt32 &&& mask).toNat]
  | _ => []

theorem IsSafe.touched (h : i.IsSafe) (r : Line) : ∀ a ∈ i.touched r, IsWordAddress a := by
  cases i with
  | integer _ _ o =>
      cases o with
      | memory a => simpa [Instruction.touched] using h r
      | _ => simp [Instruction.touched]
  | sum _ _ o =>
      cases o with
      | memory a => simpa [Instruction.touched] using h r
      | _ => simp [Instruction.touched]
  | divide _ a => simpa [Instruction.touched] using h r
  | store dst _ imm mask => simpa [Instruction.touched] using h (r.get dst + imm).toUInt32
  | _ => simp [Instruction.touched]

/-! ## Execution -/

theorem execute_ok (h : i.IsSafe) (masks : LaneMasks) (c : Core) : ∃ c', i.execute masks c = .ok c' := by
  cases i with
  | addShifted _ _ shift _ => exact ⟨_, if_pos h⟩
  | integer op dst operand =>
      obtain ⟨v, hv⟩ := operand.value_ok h c.reg.r c.pad
      exact ⟨_, by simp only [execute, hv, ok_bind]; rfl⟩
  | sum op dst operand =>
      obtain ⟨v, hv⟩ := operand.value_ok h c.reg c.pad
      exact ⟨_, by simp only [execute, hv, ok_bind]; rfl⟩
  | divide dst a =>
      obtain ⟨v, hv⟩ := c.pad.loadPair_of_le (h c.reg.r).le
      exact ⟨_, by simp only [execute, hv, ok_bind]; rfl⟩
  | store dst src imm mask =>
      obtain ⟨pad, hp⟩ := c.pad.store_of_le (c.reg.r.get src) (h (c.reg.r.get dst + imm).toUInt32).le
      exact ⟨_, by simp only [execute, hp, ok_bind]; rfl⟩
  | branch b imm mask target =>
      simp only [execute]
      split
      · exact ⟨_, rfl⟩
      · exact ⟨_, rfl⟩
  | _ => exact ⟨_, rfl⟩

/-- A branch changes its register and the counter, and nothing else. -/
theorem execute_branch (b : Reg) (imm mask : UInt64) (target : Nat) (masks : LaneMasks) (c : Core) :
    (branch b imm mask target).execute masks c =
      .ok ⟨if (c.reg.r.get b + imm) &&& mask = 0 then target else c.counter + 1,
        { c.reg with r := c.reg.r.set b (c.reg.r.get b + imm) }, c.pad⟩ := by
  simp only [execute]
  split
  · rfl
  · rfl

def isBranch : Instruction → Bool
  | branch .. => true
  | _ => false

/-- What an instruction other than a branch leaves alone, and where it goes. -/
structure Frame (i : Instruction) (c c' : Core) : Prop where
  counter : c'.counter = c.counter + 1
  get : ∀ r, r ∉ i.modified → c'.reg.r.get r = c.reg.r.get r

theorem frame_of_execute (h : i.execute masks c = .ok c') (hi : i.isBranch = false) : i.Frame c c' := by
  cases i with
  | branch _ _ _ _ => cases hi
  | addShifted dst _ shift _ =>
      simp only [execute] at h
      split at h
      · cases h
        exact ⟨rfl, fun r hr => Line.get_set_of_ne _ _ _ _ (by simpa [modified] using hr)⟩
      · cases h
  | integer op dst operand =>
      obtain ⟨_, _, h⟩ := bind_eq_ok.mp h
      cases h
      exact ⟨rfl, fun r hr => Line.get_set_of_ne _ _ _ _ (by simpa [modified] using hr)⟩
  | negate dst =>
      cases h
      exact ⟨rfl, fun r hr => Line.get_set_of_ne _ _ _ _ (by simpa [modified] using hr)⟩
  | swap dst src =>
      cases h
      refine ⟨rfl, fun r hr => ?_⟩
      simp only [modified, List.mem_cons, List.not_mem_nil, or_false, not_or] at hr
      exact (Line.get_set_of_ne _ _ _ _ hr.2).trans (Line.get_set_of_ne _ _ _ _ hr.1)
  | sum _ _ _ =>
      obtain ⟨_, _, h⟩ := bind_eq_ok.mp h
      cases h
      exact ⟨rfl, fun _ _ => rfl⟩
  | divide _ _ =>
      obtain ⟨_, _, h⟩ := bind_eq_ok.mp h
      cases h
      exact ⟨rfl, fun _ _ => rfl⟩
  | store dst src imm mask =>
      obtain ⟨p, hp, h⟩ := bind_eq_ok.mp h
      cases h
      exact ⟨rfl, fun _ _ => rfl⟩
  | _ => cases h; exact ⟨rfl, fun _ _ => rfl⟩

end Instruction

end RandomX.Program
