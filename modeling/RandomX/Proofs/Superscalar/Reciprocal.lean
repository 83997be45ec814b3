import Mathlib.Data.Nat.Bitwise
import RandomX.Proofs.Word
import RandomX.Word

/-!
# Reciprocals

A divisor has a reciprocal if it is neither zero nor a power of two. Its reciprocal is a whole quotient of a power of
two and has the highest bit of a word set.
-/
namespace RandomX

variable {d : UInt32}

/-! ## Divisors -/

/-- Taking one off a number that is no power of two leaves its highest bit alone. -/
theorem and_sub_one_ne_zero {n : Nat} (h : n ≠ 0) (hp : n ≠ 2 ^ n.log2) : n &&& (n - 1) ≠ 0 := by
  have hle := Nat.log2_self_le h
  have hlt : n < 2 ^ (n.log2 + 1) := Nat.lt_log2_self
  have hpred : (n - 1).testBit n.log2 = true := by
    rw [Nat.testBit_eq_decide_div_mod_eq, decide_eq_true_eq, Nat.div_eq_of_lt_le (k := 1)]
    · omega
    · rw [pow_succ] at hlt
      omega
  intro h0
  have hbit := congrArg (fun m => m.testBit n.log2) h0
  simp only [Nat.testBit_and, Nat.zero_testBit, hpred, Bool.and_true] at hbit
  rw [Nat.testBit_log2 h] at hbit
  cases hbit

theorem isDivisor_iff : isDivisor d = true ↔ d ≠ 0 ∧ ∀ k, d.toNat ≠ 2 ^ k := by
  by_cases hd : d = 0
  · simp [isDivisor, hd]
  · have h0 : d.toNat ≠ 0 := fun h => hd (UInt32.toNat_inj.mp h)
    have hpred : (d - 1).toNat = d.toNat - 1 :=
      UInt32.toNat_sub_of_le _ _ (by rw [UInt32.le_iff_toNat_le]; exact Nat.one_le_iff_ne_zero.mpr h0)
    have hand : (d &&& (d - 1)).toNat = d.toNat &&& (d.toNat - 1) := by rw [UInt32.toNat_and, hpred]
    simp only [isDivisor, Bool.and_eq_true, bne_iff_ne, ne_eq, hd, not_false_eq_true, true_and]
    rw [← UInt32.toNat_inj, hand]
    constructor
    · intro h k hk
      apply h
      rw [hk, Nat.and_two_pow_sub_one_eq_mod, Nat.mod_self]
      rfl
    · intro h
      exact and_sub_one_ne_zero h0 (h _)

theorem isDivisor_bounds (h : isDivisor d = true) : 2 ^ d.toNat.log2 < d.toNat ∧ d.toNat < 2 ^ (d.toNat.log2 + 1) := by
  obtain ⟨h0, hp⟩ := isDivisor_iff.mp h
  have hd : d.toNat ≠ 0 := fun h => h0 (UInt32.toNat_inj.mp h)
  exact ⟨lt_of_le_of_ne (Nat.log2_self_le hd) (hp _).symm, Nat.lt_log2_self⟩

/-! ## Quotients -/

/-- Carrying a quotient on by `s` bits. -/
theorem mul_two_pow_div (n d s : Nat) (hd : 0 < d) : n / d * 2 ^ s + n % d * 2 ^ s / d = n * 2 ^ s / d := by
  rw [Nat.mul_comm (n / d), ← Nat.mul_add_div hd]
  congr 1
  calc d * (2 ^ s * (n / d)) + n % d * 2 ^ s = (d * (n / d) + n % d) * 2 ^ s := by ring
    _ = n * 2 ^ s := by rw [Nat.div_add_mod]

theorem log2_lt_32 (d : UInt32) : d.toNat.log2 < 32 := by
  by_cases h : d.toNat = 0
  · rw [h]
    decide
  · exact (Nat.log2_lt h).mpr d.toNat_lt

/-- The quotient of `2 ^ 63`, shifted to its place in the reciprocal. -/
def quotientPart (d : UInt32) : UInt64 :=
  (0x8000000000000000 / d.toUInt64) <<< (d.toUInt64.log2 + 1)

/-- The remainder of `2 ^ 63` as a dividend of the last bits of the reciprocal. -/
def remainderPart (d : UInt32) : UInt64 :=
  (0x8000000000000000 % d.toUInt64) <<< (d.toUInt64.log2 + 1)

theorem reciprocalWord_eq (d : UInt32) : reciprocalWord d = quotientPart d + remainderPart d / d.toUInt64 :=
  rfl

theorem toNat_bitLength (d : UInt32) : (d.toUInt64.log2 + 1).toNat = d.toNat.log2 + 1 := by
  have h32 := log2_lt_32 d
  rw [UInt64.toNat_add, toNat_log2, UInt32.toNat_toUInt64, UInt64.toNat_one]
  omega

theorem isDivisor_pos (h : isDivisor d = true) : 0 < d.toNat :=
  (Nat.two_pow_pos _).trans (isDivisor_bounds h).1

/-- The whole quotient fits a word. -/
theorem quotient_lt (h : isDivisor d = true) : 2 ^ 63 * 2 ^ (d.toNat.log2 + 1) / d.toNat < 2 ^ 64 := by
  rw [Nat.div_lt_iff_lt_mul (isDivisor_pos h)]
  calc 2 ^ 63 * 2 ^ (d.toNat.log2 + 1) = 2 ^ 64 * 2 ^ d.toNat.log2 := by ring
    _ < 2 ^ 64 * d.toNat := Nat.mul_lt_mul_of_pos_left (isDivisor_bounds h).1 (by decide)

theorem toNat_quotientPart (h : isDivisor d = true) :
    (quotientPart d).toNat = 2 ^ 63 / d.toNat * 2 ^ (d.toNat.log2 + 1) := by
  have h32 := log2_lt_32 d
  have hquotient : (0x8000000000000000 / d.toUInt64).toNat = 2 ^ 63 / d.toNat := by
    rw [UInt64.toNat_div, UInt32.toNat_toUInt64]
    rfl
  have hlt := quotient_lt h
  rw [← mul_two_pow_div (2 ^ 63) d.toNat _ (isDivisor_pos h)] at hlt
  rw [quotientPart, toNat_shiftLeft_of_lt (toNat_bitLength d) (by omega), hquotient]
  rw [hquotient]
  exact (Nat.le_add_right _ _).trans_lt hlt

theorem toNat_remainderPart (h : isDivisor d = true) :
    (remainderPart d).toNat = 2 ^ 63 % d.toNat * 2 ^ (d.toNat.log2 + 1) := by
  have h32 := log2_lt_32 d
  have hremainder : (0x8000000000000000 % d.toUInt64).toNat = 2 ^ 63 % d.toNat := by
    rw [UInt64.toNat_mod, UInt32.toNat_toUInt64]
    rfl
  rw [remainderPart, toNat_shiftLeft_of_lt (toNat_bitLength d) (by omega), hremainder]
  rw [hremainder]
  calc 2 ^ 63 % d.toNat * 2 ^ (d.toNat.log2 + 1)
      < d.toNat * 2 ^ (d.toNat.log2 + 1) :=
        Nat.mul_lt_mul_of_pos_right (Nat.mod_lt _ (isDivisor_pos h)) (Nat.two_pow_pos _)
    _ ≤ 2 ^ 32 * 2 ^ 32 := Nat.mul_le_mul d.toNat_lt.le (Nat.pow_le_pow_right (by decide) (by omega))

/-- The reciprocal is the quotient of `2 ^ (63 + s)` for a divisor of `s` bits. No bit is lost on the way. -/
theorem toNat_reciprocalWord (h : isDivisor d = true) :
    (reciprocalWord d).toNat = 2 ^ (63 + (d.toNat.log2 + 1)) / d.toNat := by
  rw [reciprocalWord_eq, UInt64.toNat_add, UInt64.toNat_div, toNat_quotientPart h, toNat_remainderPart h,
    UInt32.toNat_toUInt64, mul_two_pow_div _ _ _ (isDivisor_pos h), Nat.mod_eq_of_lt (quotient_lt h), Nat.pow_add 2 63]

theorem le_reciprocalWord (h : isDivisor d = true) : 2 ^ 63 ≤ (reciprocalWord d).toNat := by
  obtain ⟨hlo, hhi⟩ := isDivisor_bounds h
  rw [toNat_reciprocalWord h, Nat.le_div_iff_mul_le ((Nat.two_pow_pos _).trans hlo), Nat.pow_add]
  exact Nat.mul_le_mul_left _ hhi.le

end RandomX
