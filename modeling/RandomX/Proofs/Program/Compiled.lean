import RandomX.Program.Compile
import RandomX.Proofs.Program.Resolve

/-!
# Compiled programs

Bytes that are long enough always compile, to as many instructions as a program has. Each instruction is resolved from
its own bytes; the target of a branch is the first index from which on up to the branch nothing modifies its register
and no other branch stands.
-/
namespace RandomX.Program

open Outcome

/-- The instruction ends the reach of a branch on a register that comes after it. -/
def Instruction.Ends (x : Instruction) (r : Reg) : Prop :=
  x.isBranch = true ∨ r ∈ x.modified

instance (x : Instruction) (r : Reg) : Decidable (x.Ends r) :=
  inferInstanceAs (Decidable (_ ∨ _))

/-- Where a branch on a register goes if it stands at index `n`. -/
structure IsTarget (code : Code) (n : Nat) (r : Reg) (t : Nat) : Prop where
  le : t ≤ n
  /-- Nothing in between ends its reach. -/
  free : ∀ j x, t ≤ j → j < n → code[j]? = some x → ¬ x.Ends r
  /-- It could not reach further back. -/
  bound : t = 0 ∨ ∃ x, code[t - 1]? = some x ∧ x.Ends r

/-- No branch has two targets. -/
theorem IsTarget.unique {code : Code} {n t u : Nat} {r : Reg} (ht : IsTarget code n r t) (hu : IsTarget code n r u) :
    t = u := by
  -- What keeps the later target from lying further back would end the reach to the earlier one.
  have hle {t u : Nat} (ht : IsTarget code n r t) (hu : IsTarget code n r u) : u ≤ t := by
    rcases hu.bound with rfl | ⟨x, hx, he⟩
    · exact Nat.zero_le t
    · by_contra hlt
      exact ht.free (u - 1) x (by omega) (by have := hu.le; omega) hx he
  exact Nat.le_antisymm (hle hu ht) (hle ht hu)

/-- Every instruction is what its bytes resolve to at its own target. -/
def IsCompiled (raw : ByteArray) (code : Code) : Prop :=
  ∀ i x, code[i]? = some x → ∃ target, (RawInstruction.read raw i).resolve target = .ok x ∧
    IsTarget code i (RawInstruction.read raw i).dst target

/-! ## The table of targets -/

namespace Targets

theorem get_foldl_set (l : List Reg) (t : Targets) (v : Nat) (r : Reg) :
    (l.foldl (fun t s => t.set s v) t).get r = if r ∈ l then v else t.get r := by
  induction l generalizing t with
  | nil => simp
  | cons s l ih =>
      rw [List.foldl_cons, ih]
      by_cases hl : r ∈ l
      · simp [hl]
      · by_cases hs : r = s
        · subst hs; simp
        · simp [hl, hs]

theorem get_after (t : Targets) (i : Nat) (x : Instruction) (r : Reg) :
    (t.after i x).get r = if x.Ends r then i + 1 else t.get r := by
  cases x with
  | branch _ _ _ _ => simp [after, Instruction.Ends, Instruction.isBranch]
  | _ => simp only [after, get_foldl_set, Instruction.Ends, Instruction.isBranch, Bool.false_eq_true, false_or]

end Targets

/-! ## Appending -/

variable {raw : ByteArray} {code : Code} {n t : Nat} {r : Reg}

theorem IsTarget.push (h : IsTarget code n r t) (hn : n ≤ code.size) (x : Instruction) :
    IsTarget (code.push x) n r t where
  le := h.le
  free j y hj hlt hy := h.free j y hj hlt (by rwa [Array.getElem?_push_lt (by omega), ← Array.getElem?_eq_getElem] at hy)
  bound := by
    rcases h.bound with h0 | ⟨y, hy, he⟩
    · exact .inl h0
    · refine .inr ⟨y, ?_, he⟩
      obtain ⟨hlt, _⟩ := Array.getElem?_eq_some_iff.mp hy
      rwa [Array.getElem?_push_lt hlt, ← Array.getElem?_eq_getElem hlt]

theorem IsTarget.after {targets : Targets} (h : IsTarget code code.size r (targets.get r)) (x : Instruction) :
    IsTarget (code.push x) (code.push x).size r ((targets.after code.size x).get r) := by
  rw [Targets.get_after, Array.size_push]
  by_cases hx : x.Ends r
  · rw [if_pos hx]
    exact ⟨le_rfl, fun j _ hj hlt => absurd hlt (by omega), .inr ⟨x, by simp, hx⟩⟩
  · rw [if_neg hx]
    have hp := h.push le_rfl x
    refine ⟨Nat.le_succ_of_le hp.le, fun j y hj hlt hy => ?_, hp.bound⟩
    rcases Nat.lt_or_eq_of_le (Nat.le_of_lt_succ hlt) with hlt | rfl
    · exact hp.free j y hj hlt hy
    · rw [Array.getElem?_push_size, Option.some.injEq] at hy
      rwa [← hy]

theorem IsCompiled.push (h : IsCompiled raw code) {x : Instruction} {target : Nat}
    (hx : (RawInstruction.read raw code.size).resolve target = .ok x)
    (ht : IsTarget code code.size (RawInstruction.read raw code.size).dst target) : IsCompiled raw (code.push x) := by
  intro i y hy
  rw [Array.getElem?_push] at hy
  split at hy
  · rename_i hi
    cases hy
    subst hi
    exact ⟨target, hx, ht.push le_rfl _⟩
  · obtain ⟨t, hr, hi⟩ := h i y hy
    obtain ⟨hlt, _⟩ := Array.getElem?_eq_some_iff.mp hy
    exact ⟨t, hr, hi.push hlt.le x⟩

/-! ## Compilation -/

theorem compileFrom_ok (n : Nat) {targets : Targets} (hc : IsCompiled raw code)
    (ht : ∀ r, IsTarget code code.size r (targets.get r)) :
    ∃ code', compileFrom raw n code.size targets code = .ok code' ∧ code'.size = code.size + n ∧
      IsCompiled raw code' := by
  induction n generalizing code targets with
  | zero => exact ⟨code, rfl, rfl, hc⟩
  | succ n ih =>
      obtain ⟨x, hx⟩ := (RawInstruction.read raw code.size).exists_resolve
        (targets.get (RawInstruction.read raw code.size).dst)
      obtain ⟨code', h, hs, hc'⟩ := ih (hc.push hx (ht _)) fun r => (ht r).after x
      rw [Array.size_push] at h hs
      exact ⟨code', by rw [compileFrom, hx, ok_bind, h], by omega, hc'⟩

theorem compile_ok (h : programSize * instructionBytes ≤ raw.size) :
    ∃ code, compile raw = .ok code ∧ code.size = programSize ∧ IsCompiled raw code := by
  rw [compile, if_neg (Nat.not_lt.mpr h)]
  have hc : IsCompiled raw (.emptyWithCapacity programSize) := fun i x hx => by simp at hx
  have ht : ∀ r, IsTarget (.emptyWithCapacity programSize) (Array.emptyWithCapacity programSize : Code).size r
      (Targets.start.get r) :=
    fun r => ⟨by simp [Targets.start], fun j x _ hj => absurd hj (by simp), .inl (by simp [Targets.start])⟩
  obtain ⟨code, hcode, hsize, h⟩ := compileFrom_ok programSize hc ht
  exact ⟨code, hcode, by simpa using hsize, h⟩

theorem ofSeed_ok (seed : Vector UInt8 64) :
    ∃ raw program, ofSeed seed = .ok program ∧ program.code.size = programSize ∧ IsCompiled raw program.code := by
  obtain ⟨buffer, hb, hsize⟩ : ∃ buffer, Aes.fill4 seed programBufferBytes = .ok buffer ∧
      buffer.size = programBufferBytes := by
    refine ⟨_, if_pos (by decide), ?_⟩
    rw [Aes.size_generate]
    rfl
  have hlen : programSize * instructionBytes ≤ (buffer.extract entropyBytes buffer.size).size := by
    rw [ByteArray.size_extract, hsize]
    decide
  obtain ⟨code, hcode, hs, hc⟩ := compile_ok hlen
  exact ⟨_, _, by rw [ofSeed, hb, ok_bind, ofBytes, hcode, ok_bind, pure_eq_ok], hs, hc⟩

namespace IsCompiled

variable {i : Nat} {x : Instruction}

theorem isSafe (h : IsCompiled raw code) (hx : code[i]? = some x) : x.IsSafe := by
  obtain ⟨_, hr, _⟩ := h i x hx
  exact RawInstruction.isSafe_of_resolve hr

theorem branch {b : Reg} {imm mask : UInt64} {t : Nat} (h : IsCompiled raw code)
    (hx : code[i]? = some (.branch b imm mask t)) : IsTarget code i b t ∧ ∃ s, IsBranchWord s imm mask := by
  obtain ⟨target, hr, ht⟩ := h i _ hx
  obtain ⟨-, rfl, rfl, hw⟩ := RawInstruction.branch_of_resolve hr
  exact ⟨ht, hw⟩

end IsCompiled

/-- The words of the scratchpad that the next step touches. -/
def touched (code : Code) (c : Core) : List Nat :=
  match code[c.counter]? with
  | some i => i.touched c.reg.r
  | none => []

theorem IsCompiled.touched (h : IsCompiled raw code) (c : Core) : ∀ a ∈ touched code c, IsWordAddress a := by
  cases hi : code[c.counter]? with
  | none => simp [Program.touched, hi]
  | some i =>
      rw [Program.touched, hi]
      exact (h.isSafe hi).touched c.reg.r

/-! ## An example -/

/-- A program that goes through eight instructions over and over: an addition from memory, a subtraction, three operations
on floats, a branch on the register of the subtraction, a change of the rounding mode, and a store. -/
def sample : ByteArray :=
  ⟨(List.replicate 32 [
    16, 1, 0, 1, 8, 0, 0, 0,
    23, 3, 2, 0, 0, 0, 0, 0,
    140, 0, 4, 0, 16, 0, 0, 0,
    172, 1, 2, 0, 0, 0, 0, 0,
    166, 2, 0, 0, 0, 0, 0, 0,
    214, 3, 0, 0x10, 1, 0, 0, 0,
    239, 0, 1, 0, 5, 0, 0, 0,
    240, 6, 3, 0xE0, 24, 0, 0, 0]).flatten.toArray⟩

theorem size_sample : programSize * instructionBytes ≤ sample.size := by
  decide +kernel

/-- The first eight of its instructions, split into their parts. -/
def sampleParts : List RawInstruction :=
  [⟨.iaddM, .r1, .r0, 1, 8⟩, ⟨.isubR, .r3, .r2, 0, 0⟩, ⟨.faddM, .r0, .r4, 0, 16⟩, ⟨.fmulR, .r1, .r2, 0, 0⟩,
    ⟨.fscalR, .r2, .r0, 0, 0⟩, ⟨.cbranch, .r3, .r0, 0x10, 1⟩, ⟨.cfround, .r0, .r1, 0, 5⟩,
    ⟨.istore, .r6, .r3, 0xE0, 24⟩]

/-- What they compile to. The branch goes to the instruction after the subtraction. -/
def sampleCode : List Instruction :=
  [.integer .add .r1 (.memory (.register .r0 8 maskL1)), .integer .sub .r3 (.register .r2),
    .sum .add .x0 (.memory (.register .r4 16 maskL2)), .multiply .x1 .x2, .scale .x2,
    .branch .r3 0x201 0x1FE00 2, .setRounding .r1 5, .store .r6 .r3 24 maskL3]

theorem read_sample : ∀ i < 8, sampleParts[i]? = some (RawInstruction.read sample i) := by
  decide +kernel

theorem compile_sample :
    ∃ code, compile sample = .ok code ∧ code.size = programSize ∧ ∀ i < 8, code[i]? = sampleCode[i]? := by
  obtain ⟨code, hcode, hs, hc⟩ := compile_ok size_sample
  have hparts (i : Nat) (hi : i < 8) : ∃ x parts t, code[i]? = some x ∧ sampleParts[i]? = some parts ∧
      parts.resolve t = .ok x ∧ IsTarget code i parts.dst t := by
    have hlt : i < code.size := by
      rw [hs, programSize]
      omega
    obtain ⟨x, hx⟩ : ∃ x, code[i]? = some x := ⟨_, Array.getElem?_eq_getElem hlt⟩
    obtain ⟨t, hr, ht⟩ := hc i x hx
    exact ⟨_, _, t, hx, read_sample i hi, hr, ht⟩
  have hother (i : Nat) (hi : i < 8) (hne : i ≠ 5) : code[i]? = sampleCode[i]? := by
    obtain ⟨x, parts, t, hx, hparts, hr, -⟩ := hparts i hi
    rw [hx]
    match i, hi with
    | 5, _ => exact absurd rfl hne
    | 0, _ | 1, _ | 2, _ | 3, _ | 4, _ | 6, _ | 7, _ =>
      cases hparts
      rw [← Except.ok.inj hr]
      rfl
  refine ⟨code, hcode, hs, fun i hi => ?_⟩
  by_cases hne : i = 5
  · subst hne
    obtain ⟨x, parts, t, hx, hparts, hr, ht⟩ := hparts 5 hi
    cases hparts
    have htarget : IsTarget code 5 .r3 2 := by
      refine ⟨by decide, fun j y hj hlt hy => ?_, .inr ⟨_, hother 1 (by decide) (by decide), by decide⟩⟩
      rw [hother j (by omega) (by omega)] at hy
      match j, hj, hlt with
      | 2, _, _ | 3, _, _ | 4, _, _ =>
        cases hy
        decide
    rw [hx, ← Except.ok.inj hr, ht.unique htarget]
    rfl
  · exact hother i hi hne

end RandomX.Program
