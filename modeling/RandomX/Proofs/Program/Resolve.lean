import RandomX.Proofs.Program.Branch
import RandomX.Proofs.Program.Step

/-!
# Resolved instructions

Every raw instruction resolves, and what it resolves to is safe. A branch keeps the target that it is given and tests
with a branch word.
-/
namespace RandomX.Program

open Outcome

/-! ## Operands -/

namespace RawInstruction

variable (i : RawInstruction)

theorem isWordAddress_mask (x : UInt32) : IsWordAddress (x &&& i.mask).toNat := by
  unfold mask
  split
  · exact isWordAddress_and x (m := maskL1) rfl (by decide)
  · exact isWordAddress_and x (m := maskL2) rfl (by decide)

theorem isWordAddress_maskL3 (x : UInt32) : IsWordAddress (x &&& maskL3).toNat :=
  isWordAddress_and x rfl (by decide)

theorem floatMemory_isSafe : i.floatMemory.IsSafe :=
  fun r => i.isWordAddress_mask (r.get i.src + i.imm).toUInt32

theorem memory_isSafe : i.memory.IsSafe := by
  unfold memory
  split
  · exact i.floatMemory_isSafe
  · exact fun _ => isWordAddress_maskL3 i.imm.toUInt32

theorem registerOrImmediate_isSafe : i.registerOrImmediate.IsSafe := by
  unfold registerOrImmediate
  split
  · trivial
  · trivial

theorem isWordAddress_storeMask (x : UInt32) : IsWordAddress (x &&& i.storeMask).toNat := by
  unfold storeMask
  split
  · exact i.isWordAddress_mask x
  · exact isWordAddress_maskL3 x

/-! ## Branches -/

theorem toNat_conditionShift : i.conditionShift.toNat = i.modifier.toNat / 16 + 8 := by
  have := i.modifier.toNat_lt
  simp only [conditionShift, conditionOffset, UInt64.toNat_add, UInt8.toNat_toUInt64, UInt8.toNat_shiftRight]
  rw [show (4 : UInt8).toNat % 8 = 4 from rfl, Nat.shiftRight_eq_div_pow, show (8 : UInt64).toNat = 8 from rfl]
  omega

theorem isBranchWord :
    IsBranchWord i.conditionShift.toNat i.branchImm (conditionMask <<< i.conditionShift) := by
  have hlt := i.modifier.toNat_lt
  have hs := i.toNat_conditionShift
  have hpred : (i.conditionShift - 1).toNat = i.conditionShift.toNat - 1 := by
    rw [UInt64.toNat_sub_of_le _ _ (by rw [UInt64.le_iff_toNat_le, hs]; simp)]
    rfl
  constructor
  case pos => omega
  case le => omega
  case mask_eq =>
    apply toNat_shiftLeft_of_lt rfl (by omega)
    have : 2 ^ i.conditionShift.toNat ≤ 2 ^ 23 := Nat.pow_le_pow_right (by decide) (by omega)
    simp only [conditionMask, UInt64.reduceToNat]
    omega
  case set =>
    simp only [branchImm, UInt64.toNat_and, UInt64.toNat_or, Nat.testBit_and, Nat.testBit_or]
    rw [testBit_not _ (by omega), toNat_one_shiftLeft (by omega), toNat_one_shiftLeft (by omega), hpred,
      Nat.testBit_two_pow_self, Nat.testBit_two_pow_of_ne (by omega)]
    simp
  case clear =>
    simp only [branchImm, UInt64.toNat_and, Nat.testBit_and]
    rw [testBit_not _ (by omega), toNat_one_shiftLeft (by omega), hpred, Nat.testBit_two_pow_self]
    simp

/-! ## Instructions -/

/-- Only divisors are inverted. -/
theorem exists_resolve (target : Nat) : ∃ x, i.resolve target = .ok x := by
  cases h : i.opcode with
  | imulRcp =>
      simp only [resolve, h]
      split
      · rename_i hd
        exact ⟨_, by rw [reciprocal, if_pos hd]; rfl⟩
      · exact ⟨_, rfl⟩
  | _ =>
      simp only [resolve, h]
      exact ⟨_, rfl⟩

variable {i} {target : Nat} {x : Instruction}

theorem isSafe_of_resolve (h : i.resolve target = .ok x) : x.IsSafe := by
  cases hop : i.opcode with
  | iaddRS =>
      simp only [resolve, hop] at h
      cases h
      have := i.modifier.toNat_lt
      simp only [Instruction.IsSafe, UInt8.lt_iff_toNat_lt, UInt8.toNat_mod]
      exact Nat.lt_trans (Nat.mod_lt _ (by decide)) (by decide)
  | iaddM | isubM | imulM | imulhM | ismulhM | ixorM =>
      simp only [resolve, hop] at h
      cases h
      exact i.memory_isSafe
  | isubR | imulR | ixorR | irorR | irolR =>
      simp only [resolve, hop] at h
      cases h
      exact i.registerOrImmediate_isSafe
  | imulRcp =>
      simp only [resolve, hop] at h
      split at h
      · obtain ⟨_, _, h⟩ := bind_eq_ok.mp h
        cases h
        trivial
      · cases h
        trivial
  | iswapR | fswapR =>
      simp only [resolve, hop] at h
      cases h
      split
      · trivial
      · trivial
  | faddM | fsubM | fdivM =>
      simp only [resolve, hop] at h
      cases h
      exact i.floatMemory_isSafe
  | istore =>
      simp only [resolve, hop] at h
      cases h
      exact i.isWordAddress_storeMask
  | _ =>
      simp only [resolve, hop] at h
      cases h
      trivial

/-- Branches come from branches alone. -/
theorem branch_of_resolve {b : Reg} {imm mask : UInt64} {t : Nat} (h : i.resolve target = .ok (.branch b imm mask t)) :
    i.opcode = .cbranch ∧ i.dst = b ∧ t = target ∧ ∃ s, IsBranchWord s imm mask := by
  cases hop : i.opcode with
  | cbranch =>
      simp only [resolve, hop] at h
      cases h
      exact ⟨rfl, rfl, rfl, _, i.isBranchWord⟩
  | imulRcp =>
      simp only [resolve, hop] at h
      split at h
      · obtain ⟨_, _, h⟩ := bind_eq_ok.mp h
        cases h
      · cases h
  | iswapR | fswapR =>
      simp only [resolve, hop, Except.ok.injEq] at h
      split at h
      · cases h
      · cases h
  | _ =>
      simp only [resolve, hop] at h
      cases h

end RawInstruction

end RandomX.Program
