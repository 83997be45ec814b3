import RandomX.Proofs.Superscalar.Generate
import RandomX.Proofs.Superscalar.Reciprocal

/-!
# Well-formed programs

What a program must be to run: its length and its registers are in range, and every instruction has operands for which
its operation neither fails nor degenerates.
-/
namespace RandomX.Superscalar

/-- The operands are in range and fit the operation. -/
structure Instruction.IsWellFormed (i : Instruction) : Prop where
  dst_lt : i.dst.index < 8
  src_lt : i.src.index < 8
  apart : i.opcode ∈ [.isubR, .ixorR, .iaddRS, .imulR] → i.dst ≠ i.src
  scaled : i.opcode = .iaddRS → i.imm < 4 ∧ i.dst.index ≠ 5
  rotation : i.opcode = .irorC → 1 ≤ i.imm ∧ i.imm ≤ 63
  constant : i.opcode ∈ [.iaddC7, .iaddC8, .iaddC9, .ixorC7, .ixorC8, .ixorC9] → ∃ w, i.imm = signExtend w
  multiplied : i.opcode = .imulRcp →
    (∃ d, d ≠ 0 ∧ (∀ k, d.toNat ≠ 2 ^ k) ∧ reciprocal d = .ok i.imm) ∧ 2 ^ 63 ≤ i.imm.toNat

/-- The size and the address register are in range, and every instruction is well formed. -/
structure Program.IsWellFormed (p : Program) : Prop where
  size_pos : 1 ≤ p.instructions.size
  size_le : p.instructions.size ≤ superscalarMaxSize
  addressRegister_lt : p.addressRegister.index < 8
  instructions : ∀ i ∈ p.instructions, i.IsWellFormed

theorem Instruction.isWellFormed {i : Instruction} (hi : i.HasImmediate) (hr : i.HasRegisters) : i.IsWellFormed where
  dst_lt := i.dst.index_lt
  src_lt := i.src.index_lt
  apart h := by
    apply hr.apart
    revert h
    cases i.opcode <;> decide
  scaled h := by
    rw [HasImmediate, h] at hi
    refine ⟨hi, fun h5 => hr.scaled h ?_⟩
    rw [← Reg.ofIndex_index i.dst, h5]
    rfl
  rotation h := by
    rw [HasImmediate, h] at hi
    obtain ⟨h0, h64⟩ := hi
    have hne : i.imm.toNat ≠ 0 := fun hz => h0 (UInt64.toNat_inj.mp hz)
    rw [UInt64.lt_iff_toNat_lt] at h64
    exact ⟨UInt64.le_iff_toNat_le.mpr (Nat.one_le_iff_ne_zero.mpr hne), UInt64.le_iff_toNat_le.mpr (Nat.le_of_lt_succ h64)⟩
  constant h := by
    simp only [List.mem_cons, List.not_mem_nil, or_false] at h
    rcases h with h | h | h | h | h | h
    all_goals
      rw [HasImmediate, h] at hi
      exact hi
  multiplied h := by
    rw [HasImmediate, h] at hi
    obtain ⟨d, hd, himm⟩ := hi
    obtain ⟨h0, hp⟩ := isDivisor_iff.mp hd
    refine ⟨⟨d, h0, hp, ?_⟩, ?_⟩
    · rw [reciprocal, if_pos hd, himm]
    · rw [himm]
      exact le_reciprocalWord hd

variable {σ : Type} [EntropyStream σ]

/-- Unless a repeated draw has no end, which cannot be where draws end, a program is generated, without an index out of
range, is well formed, and runs on every line. -/
theorem generated_program_is_well_formed (s : σ) :
    ((Program.generate s = .error .drawLimit ∧ ¬ DrawsEnd s) ∨
      ∃ p s', Program.generate s = .ok (p, s') ∧ p.IsWellFormed ∧ ∀ r, ∃ r', p.execute r = .ok r') ∧
      ∀ rs, rs ≠ [] → ∀ t : σ, ∃ r ∈ rs, (pickRegister rs t).1 = some r := by
  refine ⟨?_, fun rs hrs t => exists_pickRegister hrs t⟩
  rcases Program.generate_spec s with hends | ⟨p, s', hp, hi, hpos, hle⟩
  · exact .inl hends
  · refine .inr ⟨p, s', hp, ⟨hpos, hle, p.addressRegister.index_lt, fun i hmem => ?_⟩, ?_⟩
    · obtain ⟨himm, hregs⟩ := hi i hmem
      exact Instruction.isWellFormed himm hregs
    · exact Program.execute_ok fun i hmem => (hi i hmem).1

/-- A stream of the same byte and the same word. -/
structure Repeating where
  byte : UInt8
  word : UInt32

instance : EntropyStream Repeating where
  nextByte s := (s.byte, s)
  nextWord s := (s.word, s)

theorem Repeating.eq_of_leads {s t : Repeating} (h : Leads s t) : t = s := by
  induction h with
  | refl => rfl
  | byte _ ih => exact ih
  | word _ ih => exact ih

theorem Repeating.drawsEnd {s : Repeating} (hb : s.byte &&& 63 ≠ 0) (hw : isDivisor s.word = true) : DrawsEnd s where
  rotation t ht := by
    rw [eq_of_leads ht]
    exact ⟨0, hb⟩
  divisor t ht := by
    rw [eq_of_leads ht]
    exact ⟨0, hw⟩

theorem repeating_program_is_well_formed :
    ∃ p s', Program.generate (Repeating.mk 1 3) = .ok (p, s') ∧ p.IsWellFormed ∧ ∀ r, ∃ r', p.execute r = .ok r' := by
  have h : DrawsEnd (Repeating.mk 1 3) := Repeating.drawsEnd (by decide) (by decide)
  exact (generated_program_is_well_formed (Repeating.mk 1 3)).1.resolve_left fun hends => hends.2 h

end RandomX.Superscalar
