import RandomX.Proofs.Outcome
import RandomX.Superscalar.Instruction
import RandomX.Word

/-!
# Operands

Every operation of a superscalar program takes its own kind of immediate and of registers.
-/
namespace RandomX.Superscalar

open Outcome

/-- The operation joins two registers, which must not be the same. -/
def Opcode.isBinary : Opcode → Bool
  | isubR | ixorR | iaddRS | imulR => true
  | _ => false

namespace Instruction

variable {i : Instruction}

/-- The immediate is of the kind that the operation takes. -/
def HasImmediate (i : Instruction) : Prop :=
  match i.opcode with
  | .iaddRS => i.imm < 4
  | .irorC => i.imm ≠ 0 ∧ i.imm < 64
  | .iaddC7 | .iaddC8 | .iaddC9 | .ixorC7 | .ixorC8 | .ixorC9 => ∃ w, i.imm = signExtend w
  | .imulRcp => ∃ d, isDivisor d = true ∧ i.imm = reciprocalWord d
  | _ => i.imm = 0

/-- The registers are of the kind that the operation takes. -/
structure HasRegisters (i : Instruction) : Prop where
  apart : i.opcode.isBinary = true → i.dst ≠ i.src
  /-- The destination of a scaled addition is not r5. -/
  scaled : i.opcode = .iaddRS → i.dst ≠ .r5

theorem HasImmediate.execute_ok (h : i.HasImmediate) (r : Line) : ∃ r', i.execute r = .ok r' := by
  obtain ⟨opcode, dst, src, imm⟩ := i
  cases opcode with
  | iaddRS =>
      have hlt : imm < 64 := UInt64.lt_trans (b := 4) h (by decide)
      exact ⟨_, by simp only [execute, if_pos hlt]; rfl⟩
  | _ => exact ⟨_, rfl⟩

end Instruction

theorem Program.execute_ok {p : Program} (h : ∀ i ∈ p.instructions, i.HasImmediate) (r : Line) :
    ∃ r', p.execute r = .ok r' := by
  obtain ⟨⟨instructions⟩, addressRegister⟩ := p
  simp only [execute, List.foldlM_toArray']
  simp only [List.mem_toArray] at h
  induction instructions generalizing r with
  | nil => exact ⟨r, rfl⟩
  | cons i is ih =>
      obtain ⟨r', hr⟩ := (h i List.mem_cons_self).execute_ok r
      rw [List.foldlM_cons, hr, ok_bind]
      exact ih r' fun j hj => h j (List.mem_cons_of_mem i hj)

end RandomX.Superscalar
