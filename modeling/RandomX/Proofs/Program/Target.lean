import RandomX.Proofs.Program.Compiled
import RandomX.Proofs.Scratchpad.Bytes

/-!
# Branch targets

A branch goes back exactly as far as its register stays untouched. The registers that an instruction writes are read off
its executions here, and turn out to be those that the table of targets is updated with.
-/
namespace RandomX.Program

open Outcome

variable {x : Instruction} {r : Reg}

namespace Instruction

/-! ## Writes -/

/-- Some execution leaves another value in the register. -/
def Changes (x : Instruction) (r : Reg) : Prop :=
  ∃ masks c c', x.execute masks c = .ok c' ∧ c'.reg.r.get r ≠ c.reg.r.get r

/-- The result of the instruction goes to the register. An immediate may be neutral, so that the result never differs
from the value before. -/
def Writes (x : Instruction) (r : Reg) : Prop :=
  x.Changes r ∨ ∃ op imm, x = .integer op r (.immediate imm)

/-- An exchange is one of two registers. -/
def IsProper : Instruction → Prop
  | swap dst src => dst ≠ src
  | _ => True

theorem mem_modified_of_changes (hb : x.isBranch = false) (h : x.Changes r) : r ∈ x.modified := by
  obtain ⟨masks, c, c', he, hne⟩ := h
  by_contra hr
  apply hne
  exact (frame_of_execute he hb).get r hr

theorem mem_modified_of_writes (hb : x.isBranch = false) (h : x.Writes r) : r ∈ x.modified := by
  rcases h with h | ⟨op, imm, rfl⟩
  · exact mem_modified_of_changes hb h
  · simp [modified]

end Instruction

/-! ## States that show a write -/

/-- The registers all hold `v`, and every byte of the memory is one. -/
def uniform (v : UInt64) : Core where
  counter := 0
  reg := { RegisterFile.blank .nearest with r := .ofFn fun _ => v }
  pad := ⟨⟨.replicate scratchpadBytes 1⟩, by simp [ByteArray.size]⟩

@[simp] theorem get_uniform (v : UInt64) (r : Reg) : (uniform v).reg.r.get r = v :=
  Line.get_ofFn r fun _ => v

theorem byte_uniform (v : UInt64) {i : Nat} (hi : i < scratchpadBytes) : (uniform v).pad.byte i = 1 := by
  have hsize := (uniform v).pad.size_bytes
  rw [Scratchpad.byte, getElem!_pos _ _ (by rwa [hsize])]
  exact Array.getElem_replicate _

theorem load_uniform (v : UInt64) {a : Nat} (h : IsWordAddress a) :
    (uniform v).pad.load a = .ok 0x0101010101010101 := by
  have hle := h.le
  rw [Scratchpad.load_eq, if_pos hle]
  repeat rw [byte_uniform v (by omega)]
  rfl

theorem IntegerOp.apply_two_ne (op : IntegerOp) : op.apply 2 2 ≠ 2 := by
  cases op <;> decide

theorem IntegerOp.apply_ones_ne (op : IntegerOp) : op.apply 2 0x0101010101010101 ≠ 2 := by
  cases op <;> decide

theorem one_shiftLeft_ne_zero {s : UInt8} (h : s < 64) : (1 : UInt64) <<< s.toUInt64 ≠ 0 := by
  have hlt : s.toUInt64.toNat < 64 := by simpa using UInt8.lt_iff_toNat_lt.mp h
  intro h0
  have := congrArg UInt64.toNat h0
  rw [toNat_one_shiftLeft hlt] at this
  exact absurd this (Nat.two_pow_pos _).ne'

namespace Instruction

theorem changes_addShifted (dst src : Reg) {shift : UInt8} (imm : UInt64) (h : shift < 64) :
    (addShifted dst src shift imm).Changes dst := by
  -- The shifted addend is zero where the displacement is not, and the other way round.
  obtain ⟨v, hv⟩ : ∃ v : UInt64, (v <<< shift.toUInt64) + imm ≠ 0 := by
    by_cases himm : imm = 0
    · refine ⟨1, ?_⟩
      rw [himm, UInt64.add_zero]
      exact one_shiftLeft_ne_zero h
    · refine ⟨0, ?_⟩
      simpa using himm
  refine ⟨⟨0, 0⟩, uniform v, _, if_pos h, ?_⟩
  simpa [UInt64.add_assoc] using hv

theorem changes_integer (op : IntegerOp) (dst : Reg) {operand : Operand} (hs : operand.IsSafe)
    (hi : ∀ imm, operand ≠ .immediate imm) : (integer op dst operand).Changes dst := by
  cases operand with
  | register src =>
      refine ⟨⟨0, 0⟩, uniform 2, _, rfl, ?_⟩
      simpa using op.apply_two_ne
  | immediate imm => exact absurd rfl (hi imm)
  | memory a =>
      have hload := load_uniform 2 (hs (uniform 2).reg.r)
      refine ⟨⟨0, 0⟩, uniform 2, _, by simp only [execute, Operand.value, hload, ok_bind]; rfl, ?_⟩
      simpa using op.apply_ones_ne

theorem changes_negate (dst : Reg) : (negate dst).Changes dst := by
  refine ⟨⟨0, 0⟩, uniform 1, _, rfl, ?_⟩
  simp only [Line.get_set_self, get_uniform]
  decide

theorem changes_swap {dst src : Reg} (h : dst ≠ src) (hr : r = dst ∨ r = src) : (swap dst src).Changes r := by
  refine ⟨⟨0, 0⟩, ⟨0, { RegisterFile.blank .nearest with r := Line.zero.set dst 1 }, .blank⟩, _, rfl, ?_⟩
  rcases hr with rfl | rfl
  · simp [Line.get_set_of_ne _ _ _ _ h, Line.get_set_of_ne _ _ _ _ h.symm]
  · simp [Line.get_set_of_ne _ _ _ _ h.symm]

/-- What an instruction other than a branch writes is what it is said to modify. -/
theorem mem_modified_iff_writes (hs : x.IsSafe) (hp : x.IsProper) (hb : x.isBranch = false) :
    r ∈ x.modified ↔ x.Writes r := by
  refine ⟨fun hr => ?_, mem_modified_of_writes hb⟩
  cases x with
  | addShifted dst src shift imm =>
      obtain rfl : r = dst := by simpa [modified] using hr
      exact .inl (changes_addShifted r src imm hs)
  | integer op dst operand =>
      obtain rfl : r = dst := by simpa [modified] using hr
      by_cases hi : ∃ imm, operand = .immediate imm
      · obtain ⟨imm, rfl⟩ := hi
        exact .inr ⟨op, imm, rfl⟩
      · exact .inl (changes_integer op r hs fun imm h => hi ⟨imm, h⟩)
  | negate dst =>
      obtain rfl : r = dst := by simpa [modified] using hr
      exact .inl (changes_negate r)
  | swap dst src =>
      have hr : r = dst ∨ r = src := by simpa [modified] using hr
      exact .inl (changes_swap hp hr)
  | _ => simp [modified] at hr

end Instruction

/-! ## Targets -/

theorem RawInstruction.isProper_of_resolve {i : RawInstruction} {target : Nat} (h : i.resolve target = .ok x) :
    x.IsProper := by
  cases hop : i.opcode with
  | iswapR =>
      simp only [resolve, hop] at h
      cases h
      split
      · rename_i hne
        exact hne.symm
      · trivial
  | imulRcp =>
      simp only [resolve, hop] at h
      split at h
      · obtain ⟨_, _, h⟩ := bind_eq_ok.mp h
        cases h
        trivial
      · cases h
        trivial
  | fswapR =>
      simp only [resolve, hop] at h
      cases h
      split
      · trivial
      · trivial
  | _ =>
      simp only [resolve, hop] at h
      cases h
      trivial

variable {raw : ByteArray} {code : Code}

theorem IsCompiled.ends_iff (hc : IsCompiled raw code) {j : Nat} (hx : code[j]? = some x) (r : Reg) :
    x.Ends r ↔ x.isBranch = true ∨ x.Writes r := by
  cases hb : x.isBranch with
  | true => simp [Instruction.Ends, hb]
  | false =>
      obtain ⟨_, hr, _⟩ := hc j x hx
      have hp := RawInstruction.isProper_of_resolve hr
      simp [Instruction.Ends, hb, Instruction.mem_modified_iff_writes (hc.isSafe hx) hp hb]

/-- A branch on a register goes to the first index from which on up to the branch there is no branch and no instruction
that writes the register: none stands in between, and one stands right before the target unless that is the start. -/
theorem branch_targets_are_exact (raw : ByteArray) (h : programSize * instructionBytes ≤ raw.size) :
    ∃ code, compile raw = .ok code ∧ code.size = programSize ∧
      ∀ i b imm mask t, code[i]? = some (.branch b imm mask t) →
        t ≤ i ∧
        (∀ j x, t ≤ j → j < i → code[j]? = some x → x.isBranch = false ∧ ¬ x.Writes b) ∧
        (t = 0 ∨ ∃ x, code[t - 1]? = some x ∧ (x.isBranch = true ∨ x.Writes b)) := by
  obtain ⟨code, hcode, hs, hc⟩ := compile_ok h
  refine ⟨code, hcode, hs, fun i b imm mask t hi => ?_⟩
  have ht := (hc.branch hi).1
  refine ⟨ht.le, fun j x hj hlt hx => ?_, ?_⟩
  · have hfree := ht.free j x hj hlt hx
    rw [hc.ends_iff hx, not_or, Bool.not_eq_true] at hfree
    exact hfree
  · rcases ht.bound with h0 | ⟨x, hx, he⟩
    · exact .inl h0
    · exact .inr ⟨x, hx, (hc.ends_iff hx b).mp he⟩

/-- In a program that goes through eight instructions over and over, the branch of the first eight goes to the instruction
after the subtraction from its register. -/
theorem targets_of_branches_are_exact :
    ∃ code, compile sample = .ok code ∧ code.size = programSize ∧ code[5]? = some (.branch .r3 0x201 0x1FE00 2) ∧
      (∀ j x, 2 ≤ j → j < 5 → code[j]? = some x → x.isBranch = false ∧ ¬ x.Writes .r3) ∧
      ∃ x, code[1]? = some x ∧ (x.isBranch = true ∨ x.Writes .r3) := by
  obtain ⟨code, hcode, hs, htargets⟩ := branch_targets_are_exact sample size_sample
  obtain ⟨_, hsample, -, hfirst⟩ := compile_sample
  cases hcode.symm.trans hsample
  have hbranch : code[5]? = some (.branch .r3 0x201 0x1FE00 2) := hfirst 5 (by decide)
  obtain ⟨-, hfree, hbound⟩ := htargets 5 _ _ _ _ hbranch
  exact ⟨code, hcode, hs, hbranch, hfree, hbound.resolve_left (by decide)⟩

end RandomX.Program
