import Mathlib.Data.Nat.Size
import RandomX.Proofs.Program.Compiled
import RandomX.Proofs.Superscalar.WellFormed

/-!
# Divisors

A divisor of `s` bits has the quotient of `2 ^ (63 + s)` as its reciprocal, the last one that fits a word. The two
places where reciprocals are asked for, compiled multiplications and superscalar candidates, have a divisor each time.
-/
namespace RandomX

open Outcome Superscalar

variable {d : UInt32} {w : UInt64}

/-! ## Reciprocals -/

/-- Neither zero nor a power of two. -/
def IsProper (d : UInt32) : Prop :=
  d ≠ 0 ∧ ∀ k, d.toNat ≠ 2 ^ k

/-- The whole quotient of a power of two by a divisor. It has the highest bit of a word set, and the quotient of no
greater power fits a word. -/
structure IsReciprocal (d : UInt32) (w : UInt64) : Prop where
  eq_quotient : w.toNat = 2 ^ (63 + Nat.size d.toNat) / d.toNat
  le : 2 ^ 63 ≤ w.toNat
  lt : w.toNat < 2 ^ 64
  greatest : ∀ x, 2 ^ x / d.toNat < 2 ^ 64 ↔ x ≤ 63 + Nat.size d.toNat

/-- Neither shift loses a bit, and the sum of the two parts does not wrap around. -/
structure IsLossless (d : UInt32) : Prop where
  quotient : (quotientPart d).toNat = 2 ^ 63 / d.toNat * 2 ^ Nat.size d.toNat
  remainder : (remainderPart d).toNat = 2 ^ 63 % d.toNat * 2 ^ Nat.size d.toNat
  sum : (reciprocalWord d).toNat = (quotientPart d).toNat + (remainderPart d / d.toUInt64).toNat

theorem size_eq_log2 {n : ℕ} (h : n ≠ 0) : Nat.size n = n.log2 + 1 :=
  Nat.le_antisymm (Nat.size_le.mpr Nat.lt_log2_self) (Nat.lt_size.mpr (Nat.log2_self_le h))

theorem size_of_isDivisor (h : isDivisor d = true) : Nat.size d.toNat = d.toNat.log2 + 1 :=
  size_eq_log2 (isDivisor_pos h).ne'

theorem two_pow_div_lt_iff (h : isDivisor d = true) (x : ℕ) :
    2 ^ x / d.toNat < 2 ^ 64 ↔ x ≤ 63 + Nat.size d.toNat := by
  have hpos := isDivisor_pos h
  constructor
  · intro hlt
    by_contra hx
    have hle : 2 ^ 64 * d.toNat ≤ 2 ^ x := calc
      2 ^ 64 * d.toNat ≤ 2 ^ 64 * 2 ^ Nat.size d.toNat := Nat.mul_le_mul_left _ (Nat.lt_size_self _).le
      _ = 2 ^ (64 + Nat.size d.toNat) := (Nat.pow_add 2 64 _).symm
      _ ≤ 2 ^ x := Nat.pow_le_pow_right (by decide) (by omega)
    exact absurd ((Nat.le_div_iff_mul_le hpos).mpr hle) (Nat.not_le.mpr hlt)
  · intro hx
    calc 2 ^ x / d.toNat ≤ 2 ^ (63 + Nat.size d.toNat) / d.toNat :=
          Nat.div_le_div_right (Nat.pow_le_pow_right (by decide) hx)
      _ < 2 ^ 64 := by
          rw [Nat.pow_add, size_of_isDivisor h]
          exact quotient_lt h

theorem isReciprocal_reciprocalWord (h : isDivisor d = true) : IsReciprocal d (reciprocalWord d) where
  eq_quotient := by rw [toNat_reciprocalWord h, size_of_isDivisor h]
  le := le_reciprocalWord h
  lt := (reciprocalWord d).toNat_lt
  greatest := two_pow_div_lt_iff h

theorem isLossless (h : isDivisor d = true) : IsLossless d where
  quotient := by rw [toNat_quotientPart h, size_of_isDivisor h]
  remainder := by rw [toNat_remainderPart h, size_of_isDivisor h]
  sum := by
    rw [toNat_reciprocalWord h, UInt64.toNat_div, toNat_quotientPart h, toNat_remainderPart h, UInt32.toNat_toUInt64,
      mul_two_pow_div _ _ _ (isDivisor_pos h), Nat.pow_add 2 63]

/-! ## Compiled multiplications -/

namespace Program

variable {raw : ByteArray}

theorem compile_ne_invalidDivisor (raw : ByteArray) : compile raw ≠ .error .invalidDivisor := by
  intro h
  by_cases hsize : raw.size < programSize * instructionBytes
  · rw [compile, if_pos hsize] at h
    cases h
  · obtain ⟨code, hcode, _⟩ := compile_ok (Nat.le_of_not_lt hsize)
    rw [h] at hcode
    cases hcode

/-- What becomes of a multiplication by a reciprocal: nothing without a divisor, else one by the reciprocal as an
immediate. -/
inductive Inverts (dst : Reg) (d : UInt32) : Instruction → Prop where
  | nop (h : ¬ IsProper d) : Inverts dst d .nop
  | reciprocal {w : UInt64} (h : IsProper d) (hw : IsReciprocal d w) : Inverts dst d (.integer .mul dst (.immediate w))

theorem inverts_of_resolve {i : RawInstruction} {target : ℕ} {x : Instruction} (hop : i.opcode = .imulRcp)
    (h : i.resolve target = .ok x) : Inverts i.dst i.imm32 x := by
  simp only [RawInstruction.resolve, hop] at h
  split at h
  · rename_i hd
    rw [reciprocal, if_pos hd] at h
    cases h
    exact .reciprocal (isDivisor_iff.mp hd) (isReciprocal_reciprocalWord hd)
  · rename_i hd
    cases h
    exact .nop fun hp => hd (isDivisor_iff.mpr hp)

end Program

/-! ## Superscalar candidates -/

namespace Superscalar

variable {σ : Type} [EntropyStream σ]

omit [EntropyStream σ] in
theorem Candidate.IsDrawn.finish_ok {c : Candidate} (h : c.IsDrawn) : ∃ o, c.finish = .ok o := by
  obtain ⟨imm, himm, _⟩ := h.immediate_ok
  rw [Candidate.finish]
  split
  · exact ⟨none, rfl⟩
  · exact ⟨_, by rw [himm, ok_bind]⟩

theorem Candidate.isDrawn_of_create {opcode : Opcode} {s s' : σ} {c : Candidate} (h : create opcode s = .ok (c, s')) :
    c.IsDrawn := by
  rcases create_spec opcode s with ⟨he, _⟩ | ⟨_, _, hc, hd, _⟩
  · rw [h] at he
    cases he
  · rw [h] at hc
    cases hc
    exact hd

theorem Program.generate_ne_invalidDivisor (s : σ) : generate s ≠ .error .invalidDivisor := by
  rcases generate_spec s with ⟨he, _⟩ | ⟨_, _, hp, _⟩
  · rw [he]
    nofun
  · rw [hp]
    nofun

theorem Program.exists_divisor {s s' : σ} {p : Program} (h : generate s = .ok (p, s')) {i : Instruction}
    (hi : i ∈ p.instructions) (hop : i.opcode = .imulRcp) : ∃ d, IsProper d ∧ IsReciprocal d i.imm := by
  have himm := hasImmediate_of_generate h i hi
  rw [Instruction.HasImmediate, hop] at himm
  obtain ⟨d, hd, himm⟩ := himm
  exact ⟨d, isDivisor_iff.mp hd, himm ▸ isReciprocal_reciprocalWord hd⟩

end Superscalar

/-! ## Divisors -/

/-- Every divisor has its exact reciprocal, computed without a loss, and anything else is refused. No program is refused
for it: compiled multiplications and superscalar instructions have the reciprocals of divisors, and a candidate can be
finished with whatever registers are chosen for it. -/
theorem reciprocals_are_exact :
    (∀ d, IsProper d → ∃ w, reciprocal d = .ok w ∧ IsReciprocal d w ∧ IsLossless d) ∧
    (∀ d, ¬ IsProper d → reciprocal d = .error .invalidDivisor) ∧
    (∀ raw, Program.compile raw ≠ .error .invalidDivisor ∧
      (programSize * instructionBytes ≤ raw.size → ∃ code, Program.compile raw = .ok code ∧ code.size = programSize ∧
        ∀ i x, code[i]? = some x → (Program.RawInstruction.read raw i).opcode = .imulRcp →
          Program.Inverts (Program.RawInstruction.read raw i).dst (Program.RawInstruction.read raw i).imm32 x)) ∧
    ∀ {σ : Type} [EntropyStream σ] (s : σ),
      (∀ opcode c s', Candidate.create opcode s = .ok (c, s') → ∀ c', c.Places c' → ∃ o, c'.finish = .ok o) ∧
      Superscalar.Program.generate s ≠ .error .invalidDivisor ∧
      ∀ p s', Superscalar.Program.generate s = .ok (p, s') → ∀ i ∈ p.instructions, i.opcode = .imulRcp →
        ∃ d, IsProper d ∧ IsReciprocal d i.imm := by
  refine ⟨fun d hd => ?_, fun d hd => ?_, fun raw => ⟨Program.compile_ne_invalidDivisor raw, ?_⟩, fun s => ⟨?_, ?_, ?_⟩⟩
  · have hd := isDivisor_iff.mpr hd
    exact ⟨reciprocalWord d, if_pos hd, isReciprocal_reciprocalWord hd, isLossless hd⟩
  · exact if_neg fun h => hd (isDivisor_iff.mp h)
  · intro hsize
    obtain ⟨code, hcode, hlength, hc⟩ := Program.compile_ok hsize
    refine ⟨code, hcode, hlength, fun i x hx hop => ?_⟩
    obtain ⟨target, hresolve, _⟩ := hc i x hx
    exact Program.inverts_of_resolve hop hresolve
  · intro opcode c s' hc c' hplaces
    exact (hplaces.isDrawn (Candidate.isDrawn_of_create hc)).finish_ok
  · exact Superscalar.Program.generate_ne_invalidDivisor s
  · intro p s' hp i hi hop
    exact Superscalar.Program.exists_divisor hp hi hop

theorem reciprocal_of_three_is_exact :
    IsProper 3 ∧ reciprocal 3 = .ok 0xAAAAAAAAAAAAAAAA ∧ IsReciprocal 3 0xAAAAAAAAAAAAAAAA ∧ IsLossless 3 := by
  have hproper : IsProper 3 := isDivisor_iff.mp (by decide)
  have hword : reciprocal 3 = .ok 0xAAAAAAAAAAAAAAAA := by decide
  obtain ⟨w, hw, hreciprocal, hlossless⟩ := reciprocals_are_exact.1 3 hproper
  rw [hword] at hw
  cases hw
  exact ⟨hproper, hword, hreciprocal, hlossless⟩

end RandomX
