import RandomX.Proofs.Program.Compiled
import RandomX.Proofs.Superscalar.Reciprocal
import RandomX.Proofs.Word

/-!
# Decoding at run time

A raw instruction can be read anew from its eight bytes whenever it runs. Compiled code settles beforehand all that does
not depend on the state, and comes to the same registers and the same scratchpad.
-/
namespace RandomX

/-- The two low bits of a word are its remainder by four. -/
theorem Rounding.ofWord_eq (w : UInt64) :
    ofWord w = match w.toNat % 4 with | 0 => .nearest | 1 => .down | 2 => .up | _ => .zero := by
  have h : (w &&& 3).toNat = w.toNat % 4 := by
    rw [UInt64.toNat_and]
    exact Nat.and_two_pow_sub_one_eq_mod w.toNat 2
  unfold ofWord
  generalize (w &&& 3).toNat = n at h ⊢
  subst h
  rfl

namespace Program

open Outcome

/-- The registers and the scratchpad that an instruction leaves. -/
def Instruction.outcome (x : Instruction) (masks : LaneMasks) (c : Core) : Except Error (RegisterFile × Scratchpad) :=
  (x.execute masks c).map fun d => (d.reg, d.pad)

/-- A raw instruction: the opcode of its first byte, and the seven bytes after that. -/
structure Encoding where
  opcode : Opcode
  (dst src modifier imm0 imm1 imm2 imm3 : UInt8)

namespace Encoding

/-- The bytes of the instruction at an index. -/
def read (raw : ByteArray) (k : Nat) : Encoding :=
  let byte (j : Nat) : UInt8 := byteAt raw (8 * k + j)
  ⟨.ofByte (byte 0), byte 1, byte 2, byte 3, byte 4, byte 5, byte 6, byte 7⟩

variable (b : Encoding)

/-! ## Operands -/

def dstReg : Reg :=
  .ofIndex (b.dst.toNat % 8)

def srcReg : Reg :=
  .ofIndex (b.src.toNat % 8)

def dstFloat : FloatReg :=
  .ofIndex (b.dst.toNat % 4)

def srcFloat : FloatReg :=
  .ofIndex (b.src.toNat % 4)

def imm32 : Nat :=
  b.imm0.toNat + 2 ^ 8 * b.imm1.toNat + 2 ^ 16 * b.imm2.toNat + 2 ^ 24 * b.imm3.toNat

/-- The immediate as a signed number, modulo `2 ^ 64`. -/
def imm : UInt64 :=
  .ofInt (if b.imm32 < 2 ^ 31 then b.imm32 else b.imm32 - 2 ^ 32)

/-- The source register, or the immediate where that is the destination as well. -/
def second (r : Line) : UInt64 :=
  if b.srcReg = b.dstReg then b.imm else r.get b.srcReg

def nearMask : Nat :=
  if b.modifier.toNat % 4 ≠ 0 then maskL1.toNat else maskL2.toNat

/-- The sum of a register and the immediate modulo `2 ^ 32`, under a mask. -/
def displaced (r : Line) (base : Reg) (mask : Nat) : Nat :=
  (r.get base + b.imm).toNat % 2 ^ 32 &&& mask

def floatAddress (r : Line) : Nat :=
  b.displaced r b.srcReg b.nearMask

/-- With one register for both operands the immediate alone is the address, in the whole scratchpad. -/
def integerAddress (r : Line) : Nat :=
  if b.srcReg = b.dstReg then b.imm32 &&& maskL3.toNat else b.displaced r b.srcReg b.nearMask

def storeAddress (r : Line) : Nat :=
  b.displaced r b.dstReg (if b.modifier.toNat < 0xE0 then b.nearMask else maskL3.toNat)

/-- The lowest bit that a branch tests. -/
def lowestTested : UInt64 :=
  (b.modifier.toNat / 16 + 8).toUInt64

/-! ## Effects -/

/-- Combines the destination with a word. -/
def integer (op : IntegerOp) (y : UInt64) (reg : RegisterFile) : RegisterFile :=
  { reg with r := reg.r.set b.dstReg (op.apply (reg.r.get b.dstReg) y) }

def additive (f : FloatPair → FloatPair) (reg : RegisterFile) : RegisterFile :=
  { reg with f := reg.f.set b.dstFloat (f (reg.f.get b.dstFloat)) }

def multiplicative (f : FloatPair → FloatPair) (reg : RegisterFile) : RegisterFile :=
  { reg with e := reg.e.set b.dstFloat (f (reg.e.get b.dstFloat)) }

/-- What the instruction makes of the registers and the scratchpad. A branch adds to its register whether or not it is
taken. -/
def perform (masks : LaneMasks) (reg : RegisterFile) (pad : Scratchpad) : Except Error (RegisterFile × Scratchpad) :=
  let r := reg.r
  let mode := reg.rounding
  let integerR (op : IntegerOp) (y : UInt64) := .ok (b.integer op y reg, pad)
  let integerM (op : IntegerOp) := do return (b.integer op (← pad.load (b.integerAddress r)) reg, pad)
  let additiveR (op : SumOp) := .ok (b.additive (·.map₂ (op.apply mode) (reg.a.get b.srcFloat)) reg, pad)
  let additiveM (op : SumOp) := do
    let y ← pad.loadPair (b.floatAddress r)
    return (b.additive (·.map₂ (op.apply mode) y) reg, pad)
  match b.opcode with
  | .iaddRS =>
    let shifted := r.get b.srcReg <<< (b.modifier.toNat / 4 % 4).toUInt64
    .ok ({ reg with r := r.set b.dstReg (r.get b.dstReg + shifted + if b.dstReg = .r5 then b.imm else 0) }, pad)
  | .iaddM => integerM .add
  | .isubR => integerR .sub (b.second r)
  | .isubM => integerM .sub
  | .imulR => integerR .mul (b.second r)
  | .imulM => integerM .mul
  | .imulhR => integerR .mulHigh (r.get b.srcReg)
  | .imulhM => integerM .mulHigh
  | .ismulhR => integerR .mulHighSigned (r.get b.srcReg)
  | .ismulhM => integerM .mulHighSigned
  | .imulRcp =>
    if b.imm32 = 0 ∨ b.imm32.isPowerOfTwo then .ok (reg, pad)
    else integerR .mul (2 ^ (64 + b.imm32.log2) / b.imm32).toUInt64
  | .inegR => .ok ({ reg with r := r.set b.dstReg (-r.get b.dstReg) }, pad)
  | .ixorR => integerR .xor (b.second r)
  | .ixorM => integerM .xor
  | .irorR => integerR .rotateRight (b.second r)
  | .irolR => integerR .rotateLeft (b.second r)
  | .iswapR =>
    if b.srcReg = b.dstReg then .ok (reg, pad)
    else .ok ({ reg with r := (r.set b.dstReg (r.get b.srcReg)).set b.srcReg (r.get b.dstReg) }, pad)
  | .fswapR => .ok (if b.dst.toNat.testBit 2 then b.multiplicative .swap reg else b.additive .swap reg, pad)
  | .faddR => additiveR .add
  | .faddM => additiveM .add
  | .fsubR => additiveR .sub
  | .fsubM => additiveM .sub
  | .fscalR => .ok (b.additive (·.map .scaled) reg, pad)
  | .fmulR => .ok (b.multiplicative (·.map₂ (.mul mode) (reg.a.get b.srcFloat)) reg, pad)
  | .fdivM => do
    let y ← pad.loadPair (b.floatAddress r)
    return (b.multiplicative (·.map₂ (.div mode) (y.masked masks)) reg, pad)
  | .fsqrtR => .ok (b.multiplicative (·.map (.sqrt mode)) reg, pad)
  | .cbranch =>
    let addend := (b.imm ||| (1 <<< b.lowestTested)) &&& ~~~(1 <<< (b.lowestTested - 1))
    .ok (b.integer .add addend reg, pad)
  | .cfround =>
    let rotated := rotateRight (r.get b.srcReg) (b.imm32 % 64).toUInt64
    let mode :=
      match rotated.toNat % 4 with
      | 0 => .nearest
      | 1 => .down
      | 2 => .up
      | _ => .zero
    .ok ({ reg with rounding := mode }, pad)
  | .istore => do return (reg, ← pad.store (b.storeAddress r) (r.get b.srcReg))

/-! ## Fields of the raw instruction -/

/-- The parts of the instruction. -/
def split : RawInstruction where
  opcode := b.opcode
  dst := .ofByte b.dst
  src := .ofByte b.src
  modifier := b.modifier
  imm32 := word32 b.imm0 b.imm1 b.imm2 b.imm3

theorem split_read (raw : ByteArray) (k : Nat) : (read raw k).split = RawInstruction.read raw k :=
  rfl

@[simp] theorem opcode_split : b.split.opcode = b.opcode :=
  rfl

@[simp] theorem modifier_split : b.split.modifier = b.modifier :=
  rfl

@[simp] theorem dst_split : b.split.dst = b.dstReg :=
  (Reg.ofIndex_mod b.dst.toNat).symm

@[simp] theorem src_split : b.split.src = b.srcReg :=
  (Reg.ofIndex_mod b.src.toNat).symm

@[simp] theorem toFloat_dstReg : b.dstReg.toFloat = b.dstFloat := by
  rw [dstReg, dstFloat, Reg.ofIndex_mod, Reg.toFloat_ofIndex, FloatReg.ofIndex_mod]

@[simp] theorem toFloat_srcReg : b.srcReg.toFloat = b.srcFloat := by
  rw [srcReg, srcFloat, Reg.ofIndex_mod, Reg.toFloat_ofIndex, FloatReg.ofIndex_mod]

@[simp] theorem toNat_imm32_split : b.split.imm32.toNat = b.imm32 :=
  toNat_word32 b.imm0 b.imm1 b.imm2 b.imm3

@[simp] theorem imm_split : b.split.imm = b.imm := by
  rw [RawInstruction.imm, signExtend_eq, toNat_imm32_split, imm]

example : (Encoding.mk .isubR 0 0 0 0xFE 0xFF 0xFF 0xFF).imm = 0 - 2 := by
  decide

theorem toNat_mask_split : b.split.mask.toNat = b.nearMask := by
  have h : b.modifier % 4 = 0 ↔ b.modifier.toNat % 4 = 0 := by
    rw [← UInt8.toNat_inj, UInt8.toNat_mod]
    rfl
  simp only [RawInstruction.mask, nearMask, modifier_split, ne_eq, h]
  split
  · rfl
  · rfl

theorem toNat_storeMask_split :
    b.split.storeMask.toNat = if b.modifier.toNat < 0xE0 then b.nearMask else maskL3.toNat := by
  have h : b.modifier >>> 4 < storeL3Condition ↔ b.modifier.toNat < 0xE0 := by
    rw [UInt8.lt_iff_toNat_lt, UInt8.toNat_shiftRight, Nat.shiftRight_eq_div_pow]
    exact Nat.div_lt_iff_lt_mul (by decide)
  simp only [RawInstruction.storeMask, modifier_split, h]
  split
  · exact b.toNat_mask_split
  · rfl

/-! ## Operands of the raw instruction -/

theorem toNat_displaced (r : Line) (base : Reg) (mask : UInt32) :
    ((r.get base + b.imm).toUInt32 &&& mask).toNat = b.displaced r base mask.toNat := by
  rw [displaced, UInt32.toNat_and, UInt64.toNat_toUInt32]

theorem resolve_floatMemory (r : Line) : (b.split.floatMemory.resolve r).toNat = b.floatAddress r := by
  rw [RawInstruction.floatMemory, floatAddress, src_split, imm_split, Address.resolve, toNat_displaced,
    toNat_mask_split]

theorem resolve_memory (r : Line) : (b.split.memory.resolve r).toNat = b.integerAddress r := by
  rw [RawInstruction.memory, integerAddress, src_split, dst_split]
  by_cases h : b.srcReg = b.dstReg
  · rw [if_neg (not_not.mpr h), if_pos h, Address.resolve, UInt32.toNat_and, RawInstruction.imm, toUInt32_signExtend,
      toNat_imm32_split]
  · rw [if_pos h, if_neg h, imm_split, Address.resolve, toNat_displaced, toNat_mask_split]

theorem value_registerOrImmediate (r : Line) (pad : Scratchpad) :
    b.split.registerOrImmediate.value r pad = .ok (b.second r) := by
  rw [RawInstruction.registerOrImmediate, second, src_split, dst_split, imm_split]
  by_cases h : b.srcReg = b.dstReg
  · rw [if_neg (not_not.mpr h), if_pos h, Operand.value]
  · rw [if_pos h, if_neg h, Operand.value]

theorem store_address (r : Line) :
    ((r.get b.dstReg + b.imm).toUInt32 &&& b.split.storeMask).toNat = b.storeAddress r := by
  rw [toNat_displaced, toNat_storeMask_split, storeAddress]

theorem shift_split : ((b.modifier >>> 2) % 4).toUInt64 = (b.modifier.toNat / 4 % 4).toUInt64 := by
  rw [← UInt64.toNat_inj, UInt8.toNat_toUInt64, UInt8.toNat_mod, UInt8.toNat_shiftRight, Nat.shiftRight_eq_div_pow,
    UInt64.toNat_ofNat', Nat.mod_eq_of_lt (by omega : b.modifier.toNat / 4 % 4 < 2 ^ 64)]
  rfl

theorem rotate_split : (b.split.imm32 &&& 63).toUInt64 = (b.imm32 % 64).toUInt64 := by
  rw [← UInt64.toNat_inj, UInt32.toNat_toUInt64, UInt32.toNat_and, toNat_imm32_split, UInt64.toNat_ofNat',
    Nat.mod_eq_of_lt (by omega : b.imm32 % 64 < 2 ^ 64)]
  exact Nat.and_two_pow_sub_one_eq_mod b.imm32 6

theorem isDivisor_split : isDivisor b.split.imm32 = true ↔ ¬ (b.imm32 = 0 ∨ b.imm32.isPowerOfTwo) := by
  have h0 : b.split.imm32 = 0 ↔ b.imm32 = 0 := by
    rw [← toNat_imm32_split, ← UInt32.toNat_inj]
    rfl
  rw [isDivisor_iff, toNat_imm32_split, ne_eq, h0, not_or, Nat.isPowerOfTwo, not_exists]

theorem reciprocalWord_split (h : isDivisor b.split.imm32 = true) :
    reciprocalWord b.split.imm32 = (2 ^ (64 + b.imm32.log2) / b.imm32).toUInt64 := by
  have hword := toNat_reciprocalWord h
  rw [toNat_imm32_split, Nat.add_comm b.imm32.log2, ← Nat.add_assoc] at hword
  rw [← hword]
  exact (UInt64.ofNat_toNat).symm

theorem index_dstReg_lt : b.dstReg.index < 4 ↔ ¬ b.dst.toNat.testBit 2 := by
  rw [dstReg, Reg.index_ofIndex, Nat.testBit_eq_decide_div_mod_eq, decide_eq_true_eq]
  omega

theorem conditionShift_split : b.split.conditionShift = b.lowestTested := by
  have := b.modifier.toNat_lt
  rw [← UInt64.toNat_inj, RawInstruction.toNat_conditionShift, lowestTested, UInt64.toNat_ofNat', modifier_split,
    Nat.mod_eq_of_lt (by omega : b.modifier.toNat / 16 + 8 < 2 ^ 64)]

/-! ## Execution -/

variable {b} {target : Nat} {x : Instruction}

theorem outcome_onMemory (op : IntegerOp) (masks : LaneMasks) (c : Core) :
    (b.split.onMemory op).outcome masks c = do
      return (b.integer op (← c.pad.load (b.integerAddress c.reg.r)) c.reg, c.pad) := by
  simp only [Instruction.outcome, RawInstruction.onMemory, Instruction.execute, Operand.value, resolve_memory,
    dst_split]
  cases c.pad.load (b.integerAddress c.reg.r) with
  | error e => rfl
  | ok y => rfl

theorem outcome_onRegister (op : IntegerOp) (masks : LaneMasks) (c : Core) :
    (b.split.onRegister op).outcome masks c = .ok (b.integer op (b.second c.reg.r) c.reg, c.pad) := by
  simp only [Instruction.outcome, RawInstruction.onRegister, Instruction.execute, value_registerOrImmediate, dst_split,
    ok_bind]
  rfl

theorem outcome_sum_memory (op : SumOp) (masks : LaneMasks) (c : Core) :
    (Instruction.sum op b.dstFloat (.memory b.split.floatMemory)).outcome masks c = do
      let y ← c.pad.loadPair (b.floatAddress c.reg.r)
      return (b.additive (·.map₂ (op.apply c.reg.rounding) y) c.reg, c.pad) := by
  simp only [Instruction.outcome, Instruction.execute, FloatOperand.value, resolve_floatMemory]
  cases c.pad.loadPair (b.floatAddress c.reg.r) with
  | error e => rfl
  | ok y => rfl

theorem outcome_of_resolve (h : b.split.resolve target = .ok x) (masks : LaneMasks) (c : Core) :
    x.outcome masks c = b.perform masks c.reg c.pad := by
  cases hop : b.opcode with
  | iaddRS =>
      have hshift : (b.modifier >>> 2) % 4 < 64 := by
        rw [UInt8.lt_iff_toNat_lt, UInt8.toNat_mod]
        exact Nat.lt_trans (Nat.mod_lt _ (by decide)) (by decide)
      simp only [RawInstruction.resolve, opcode_split, hop, dst_split, src_split, imm_split] at h
      cases h
      simp only [perform, hop, Instruction.outcome, Instruction.execute, modifier_split, if_pos hshift, shift_split]
      rfl
  | iaddM | isubM | imulM | imulhM | ismulhM | ixorM =>
      simp only [RawInstruction.resolve, opcode_split, hop] at h
      cases h
      simp only [perform, hop, outcome_onMemory]
  | isubR | imulR | ixorR | irorR | irolR =>
      simp only [RawInstruction.resolve, opcode_split, hop] at h
      cases h
      simp only [perform, hop, outcome_onRegister]
  | imulRcp =>
      simp only [RawInstruction.resolve, opcode_split, hop, reciprocal, dst_split] at h
      simp only [perform, hop]
      by_cases hd : isDivisor b.split.imm32 = true
      · rw [if_pos hd, if_pos hd] at h
        rw [if_neg (b.isDivisor_split.mp hd), ← b.reciprocalWord_split hd]
        cases h
        rfl
      · rw [if_neg hd] at h
        rw [if_pos (not_not.mp (mt b.isDivisor_split.mpr hd))]
        cases h
        rfl
  | iswapR =>
      simp only [RawInstruction.resolve, opcode_split, hop, dst_split, src_split] at h
      cases h
      simp only [perform, hop]
      by_cases hr : b.srcReg = b.dstReg
      · rw [if_neg (not_not.mpr hr), if_pos hr]
        rfl
      · rw [if_pos hr, if_neg hr]
        rfl
  | fswapR =>
      simp only [RawInstruction.resolve, opcode_split, hop, dst_split, toFloat_dstReg] at h
      cases h
      simp only [perform, hop]
      by_cases hb : b.dst.toNat.testBit 2 = true
      · rw [if_neg (mt b.index_dstReg_lt.mp (not_not.mpr hb)), if_pos hb]
        rfl
      · rw [if_pos (b.index_dstReg_lt.mpr hb), if_neg hb]
        rfl
  | faddM | fsubM =>
      simp only [RawInstruction.resolve, opcode_split, hop, dst_split, toFloat_dstReg] at h
      cases h
      simp only [perform, hop, outcome_sum_memory]
  | fdivM =>
      simp only [RawInstruction.resolve, opcode_split, hop, dst_split, toFloat_dstReg] at h
      cases h
      simp only [perform, hop, Instruction.outcome, Instruction.execute, resolve_floatMemory]
      cases c.pad.loadPair (b.floatAddress c.reg.r) with
      | error e => rfl
      | ok y => rfl
  | cbranch =>
      simp only [RawInstruction.resolve, opcode_split, hop, RawInstruction.branchImm, dst_split, imm_split,
        conditionShift_split] at h
      cases h
      simp only [perform, hop, Instruction.outcome, Instruction.execute_branch]
      rfl
  | cfround =>
      simp only [RawInstruction.resolve, opcode_split, hop, src_split] at h
      cases h
      simp only [perform, hop, Instruction.outcome, Instruction.execute, rotate_split, Rounding.ofWord_eq]
      rfl
  | istore =>
      simp only [RawInstruction.resolve, opcode_split, hop, dst_split, src_split, imm_split] at h
      cases h
      simp only [perform, hop, Instruction.outcome, Instruction.execute, store_address]
      cases c.pad.store (b.storeAddress c.reg.r) (c.reg.r.get b.srcReg) with
      | error e => rfl
      | ok pad => rfl
  | imulhR | ismulhR | inegR =>
      simp only [RawInstruction.resolve, opcode_split, hop, dst_split, src_split] at h
      cases h
      simp only [perform, hop]
      rfl
  | faddR | fsubR | fscalR | fmulR | fsqrtR =>
      simp only [RawInstruction.resolve, opcode_split, hop, dst_split, src_split, toFloat_dstReg, toFloat_srcReg] at h
      cases h
      simp only [perform, hop]
      rfl

theorem isBranch_of_resolve (h : b.split.resolve target = .ok x) (hb : b.opcode ≠ .cbranch) : x.isBranch = false := by
  cases x with
  | branch _ _ _ _ => exact absurd (RawInstruction.branch_of_resolve h).1 hb
  | _ => rfl

end Encoding

/-! ## Compiled code -/

variable {raw : ByteArray}

/-- In every state a step of compiled code leaves the registers and the scratchpad that its eight bytes call for, and
goes on to the next instruction unless the bytes are those of a branch. -/
theorem compiled_step_agrees_with_bytes (h : programSize * instructionBytes ≤ raw.size) :
    ∃ code, compile raw = .ok code ∧
      ∀ k < programSize, ∀ masks reg pad, ∃ n reg' pad',
        (Encoding.read raw k).perform masks reg pad = .ok (reg', pad') ∧
          step code masks ⟨k, reg, pad⟩ = .ok ⟨n, reg', pad'⟩ ∧
          ((Encoding.read raw k).opcode ≠ .cbranch → n = k + 1) := by
  obtain ⟨code, hcode, hsize, hcompiled⟩ := compile_ok h
  refine ⟨code, hcode, fun k hk masks reg pad => ?_⟩
  have hx : code[k]? = some code[k] := Array.getElem?_eq_getElem (by rwa [hsize])
  obtain ⟨target, hresolve, _⟩ := hcompiled k _ hx
  rw [← Encoding.split_read] at hresolve
  have hsafe := RawInstruction.isSafe_of_resolve hresolve
  obtain ⟨⟨n, reg', pad'⟩, hstep⟩ := Instruction.execute_ok hsafe masks ⟨k, reg, pad⟩
  refine ⟨n, reg', pad', ?_, ?_, fun hb => ?_⟩
  · rw [← Encoding.outcome_of_resolve hresolve masks ⟨k, reg, pad⟩, Instruction.outcome, hstep]
    rfl
  · rw [step, hx]
    exact hstep
  · exact (Instruction.frame_of_execute hstep (Encoding.isBranch_of_resolve hresolve hb)).counter

/-- A program with a memory operand, floats, a branch, a change of the rounding mode and a store. -/
theorem sample_step_agrees_with_bytes :
    ∃ code, compile sample = .ok code ∧ (∀ i < 8, code[i]? = sampleCode[i]?) ∧
      ∀ k < programSize, ∀ masks reg pad, ∃ n reg' pad',
        (Encoding.read sample k).perform masks reg pad = .ok (reg', pad') ∧
          step code masks ⟨k, reg, pad⟩ = .ok ⟨n, reg', pad'⟩ ∧
          ((Encoding.read sample k).opcode ≠ .cbranch → n = k + 1) := by
  obtain ⟨code, hcode, hstep⟩ := compiled_step_agrees_with_bytes size_sample
  obtain ⟨_, hsample, -, hfirst⟩ := compile_sample
  cases hcode.symm.trans hsample
  exact ⟨code, hcode, hfirst, hstep⟩

end Program

end RandomX
