import Mathlib.Algebra.Order.Field.Power
import Mathlib.Algebra.Order.Field.Rat
import Mathlib.Data.Nat.Bitwise
import Mathlib.Tactic.Linarith
import Mathlib.Tactic.Ring
import RandomX.Binary64.Rounding
import RandomX.Proofs.Word

/-!
# Values

The rational number that a double stands for. Without its sign the pattern of a double is its rank: magnitudes ascend
with ranks, and neighbouring ranks lie one unit in the last place apart.
-/
namespace RandomX.Binary64

variable {x y : Binary64} {s : Bool} {v : ℚ}

/-! ## Fields -/

/-- The pattern without its sign. -/
def rank (x : Binary64) : Nat :=
  x.bits.toNat % 2 ^ 63

theorem rank_lt (x : Binary64) : x.rank < 2 ^ 63 :=
  Nat.mod_lt _ (by decide)

theorem toNat_fraction (x : Binary64) : x.fraction.toNat = x.rank % 2 ^ 52 := by
  have h : x.fraction.toNat = x.bits.toNat &&& (2 ^ 52 - 1) := UInt64.toNat_and _ _
  rw [h, Nat.and_two_pow_sub_one_eq_mod, rank]
  omega

theorem toNat_exponentField (x : Binary64) : x.exponentField.toNat = x.rank / 2 ^ 52 := by
  have h : x.exponentField.toNat = (x.bits.toNat >>> 52) &&& (2 ^ 11 - 1) := UInt64.toNat_and _ _
  rw [h, Nat.and_two_pow_sub_one_eq_mod, Nat.shiftRight_eq_div_pow, rank]
  have := x.bits.toNat_lt
  omega

theorem fraction_lt (x : Binary64) : x.fraction.toNat < 2 ^ 52 := by
  rw [toNat_fraction]
  exact Nat.mod_lt _ (by decide)

theorem exponentField_lt (x : Binary64) : x.exponentField.toNat < 2048 := by
  have := x.rank_lt
  rw [toNat_exponentField]
  omega

theorem exponentField_eq_zero_iff : x.exponentField = 0 ↔ x.exponentField.toNat = 0 := by
  rw [← UInt64.toNat_inj]
  rfl

theorem isNegative_iff : x.isNegative = true ↔ 2 ^ 63 ≤ x.bits.toNat := by
  have h : (x.bits >>> 63).toNat = x.bits.toNat / 2 ^ 63 := toNat_shiftRight_of_lt rfl (by decide)
  rw [isNegative, bne_iff_ne, ne_eq, ← UInt64.toNat_inj, h]
  simp only [UInt64.toNat_ofNat]
  omega

theorem toNat_bits (x : Binary64) : x.bits.toNat = x.rank + if x.isNegative then 2 ^ 63 else 0 := by
  have hx := x.bits.toNat_lt
  rw [rank]
  split <;> rename_i hs <;> rw [isNegative_iff] at hs <;> omega

theorem isFinite_iff : x.isFinite = true ↔ x.exponentField.toNat ≤ 2046 := by
  have := x.exponentField_lt
  rw [isFinite, bne_iff_ne, ne_eq, ← UInt64.toNat_inj]
  change x.exponentField.toNat ≠ 2047 ↔ _
  omega

theorem isNaN_iff : x.isNaN = true ↔ 2047 * 2 ^ 52 < x.rank := by
  have := x.rank_lt
  rw [isNaN, Bool.and_eq_true, beq_iff_eq, bne_iff_ne, ne_eq, ← UInt64.toNat_inj, ← UInt64.toNat_inj,
    toNat_exponentField, toNat_fraction]
  change x.rank / 2 ^ 52 = 2047 ∧ x.rank % 2 ^ 52 ≠ 0 ↔ _
  omega

theorem isInfinite_iff : x.isInfinite = true ↔ x.rank = 2047 * 2 ^ 52 := by
  rw [isInfinite, Bool.and_eq_true, beq_iff_eq, beq_iff_eq, ← UInt64.toNat_inj, ← UInt64.toNat_inj, toNat_exponentField,
    toNat_fraction]
  change x.rank / 2 ^ 52 = 2047 ∧ x.rank % 2 ^ 52 = 0 ↔ _
  omega

theorem isNaN_of_isFinite (h : x.isFinite = true) : x.isNaN = false := by
  rw [isFinite_iff, toNat_exponentField] at h
  rw [← Bool.not_eq_true, isNaN_iff]
  omega

theorem isInfinite_of_isFinite (h : x.isFinite = true) : x.isInfinite = false := by
  rw [isFinite_iff, toNat_exponentField] at h
  rw [← Bool.not_eq_true, isInfinite_iff]
  omega

theorem isZero_iff : x.isZero = true ↔ x.rank = 0 := by
  rw [isZero, Bool.and_eq_true, beq_iff_eq, beq_iff_eq, ← UInt64.toNat_inj, ← UInt64.toNat_inj, toNat_exponentField,
    toNat_fraction]
  change x.rank / 2 ^ 52 = 0 ∧ x.rank % 2 ^ 52 = 0 ↔ _
  omega

theorem isZero_eq_false_iff : x.isZero = false ↔ x.rank ≠ 0 := by
  rw [← Bool.not_eq_true, isZero_iff]

/-- A double is finite, infinite or a NaN, and only finite ones are zero. -/
inductive Kind (x : Binary64) : Prop where
  | finite (isFinite : x.isFinite = true) (isNaN : x.isNaN = false) (isInfinite : x.isInfinite = false)
  | infinite (isFinite : x.isFinite = false) (isNaN : x.isNaN = false) (isInfinite : x.isInfinite = true)
      (isZero : x.isZero = false)
  | nan (isFinite : x.isFinite = false) (isNaN : x.isNaN = true) (isInfinite : x.isInfinite = false)
      (isZero : x.isZero = false)

theorem kind (x : Binary64) : x.Kind := by
  have hfinite := isFinite_iff (x := x)
  have hnan := isNaN_iff (x := x)
  have hinf := isInfinite_iff (x := x)
  have hzero := isZero_iff (x := x)
  rw [toNat_exponentField] at hfinite
  rcases lt_trichotomy x.rank (2047 * 2 ^ 52) with h | h | h
  · refine .finite (hfinite.mpr (by omega)) ?_ ?_ <;> simp only [← Bool.not_eq_true, hnan, hinf] <;> omega
  · refine .infinite ?_ ?_ (hinf.mpr h) ?_ <;> simp only [← Bool.not_eq_true, hfinite, hnan, hzero] <;> omega
  · refine .nan ?_ (hnan.mpr h) ?_ ?_ <;> simp only [← Bool.not_eq_true, hfinite, hinf, hzero] <;> omega

theorem rank_eq (x : Binary64) : x.rank = x.exponentField.toNat * 2 ^ 52 + x.fraction.toNat := by
  rw [toNat_exponentField, toNat_fraction]
  omega

theorem toNat_significand (x : Binary64) :
    x.significand.toNat = if x.exponentField.toNat = 0 then x.fraction.toNat else x.fraction.toNat + 2 ^ 52 := by
  have h := x.fraction_lt
  rw [significand]
  simp only [exponentField_eq_zero_iff]
  split
  · rfl
  · rw [UInt64.toNat_add, leadingBit]
    simp only [UInt64.toNat_ofNat]
    omega

theorem significand_lt (x : Binary64) : x.significand.toNat < 2 ^ 53 := by
  have h := x.fraction_lt
  rw [toNat_significand]
  split <;> omega

theorem exponent_eq (x : Binary64) : x.exponent = (x.exponentField.toNat - 1 : Nat) - 1074 := by
  rw [exponent]
  simp only [exponentField_eq_zero_iff, leastExponent]
  split <;> omega

/-! ## Magnitudes -/

/-- The value without its sign. To the pattern of infinity it gives the next power of two. -/
def magnitude (x : Binary64) : ℚ :=
  x.significand.toNat * 2 ^ x.exponent

/-- The value of a finite double. -/
def toRat (x : Binary64) : ℚ :=
  if x.isNegative then -x.magnitude else x.magnitude

/-- The magnitude of a rank in units of the least positive double. -/
def units (m : Nat) : Nat :=
  if m < 2 ^ 52 then m else (m % 2 ^ 52 + 2 ^ 52) * 2 ^ (m / 2 ^ 52 - 1)

theorem two_zpow_add (k : ℕ) (q : ℤ) : (2 : ℚ) ^ (q + k) = (2 ^ k : ℕ) * 2 ^ q := by
  rw [zpow_add₀ two_ne_zero, zpow_natCast]
  push_cast
  ring

theorem magnitude_eq (x : Binary64) : x.magnitude = units x.rank * 2 ^ (-1074 : ℤ) := by
  rw [magnitude, exponent_eq, sub_eq_neg_add, two_zpow_add, ← mul_assoc, toNat_significand, toNat_exponentField,
    toNat_fraction, units]
  generalize (2 : ℚ) ^ (-1074 : ℤ) = u
  by_cases h : x.rank < 2 ^ 52
  · rw [if_pos (by omega), if_pos h, show x.rank / 2 ^ 52 - 1 = 0 by omega, show x.rank % 2 ^ 52 = x.rank by omega]
    simp
  · rw [if_neg (by omega), if_neg h]
    push_cast
    ring

/-- The next rank lies one unit in the last place above. -/
theorem units_succ (m : Nat) : units (m + 1) = units m + 2 ^ (m / 2 ^ 52 - 1) := by
  unfold units
  by_cases h : m + 1 < 2 ^ 52
  · rw [if_pos h, if_pos (by omega), show m / 2 ^ 52 - 1 = 0 by omega, pow_zero]
  · rw [if_neg h]
    by_cases hm : m < 2 ^ 52
    · rw [if_pos hm, show m = 2 ^ 52 - 1 by omega]
      rfl
    · rw [if_neg hm]
      by_cases hcarry : m % 2 ^ 52 = 2 ^ 52 - 1
      · -- The fraction is full, and the carry goes to the exponent.
        rw [show (m + 1) % 2 ^ 52 = 0 by omega, show (m + 1) / 2 ^ 52 - 1 = m / 2 ^ 52 - 1 + 1 by omega, hcarry, pow_succ]
        ring
      · rw [show (m + 1) % 2 ^ 52 = m % 2 ^ 52 + 1 by omega, show (m + 1) / 2 ^ 52 - 1 = m / 2 ^ 52 - 1 by omega]
        ring

theorem units_strictMono : StrictMono units :=
  strictMono_nat_of_lt_succ fun m => by
    rw [units_succ]
    exact Nat.lt_add_of_pos_right (Nat.two_pow_pos _)

theorem magnitude_le_iff : x.magnitude ≤ y.magnitude ↔ x.rank ≤ y.rank := by
  rw [magnitude_eq, magnitude_eq, mul_le_mul_iff_left₀ (zpow_pos two_pos _), Nat.cast_le, units_strictMono.le_iff_le]

theorem magnitude_lt_iff : x.magnitude < y.magnitude ↔ x.rank < y.rank := by
  rw [← not_le, magnitude_le_iff, not_le]

theorem magnitude_nonneg (x : Binary64) : 0 ≤ x.magnitude :=
  mul_nonneg (Nat.cast_nonneg _) (zpow_pos two_pos _).le

/-- The positive double of a rank. -/
def ofRank (m : Nat) : Binary64 :=
  ⟨m.toUInt64⟩

theorem rank_ofRank {m : Nat} (h : m < 2 ^ 63) : (ofRank m).rank = m := by
  have hbits : (ofRank m).bits.toNat = m := UInt64.toNat_ofNat_of_lt' (h.trans (by decide))
  rw [rank, hbits]
  exact Nat.mod_eq_of_lt h

theorem magnitude_ofRank_succ {m : Nat} (h : m + 1 < 2 ^ 63) :
    (ofRank (m + 1)).magnitude = (ofRank m).magnitude + 2 ^ (((m / 2 ^ 52 - 1 : ℕ) : ℤ) - 1074) := by
  have hpow : (2 : ℚ) ^ (((m / 2 ^ 52 - 1 : ℕ) : ℤ) - 1074) = (2 ^ (m / 2 ^ 52 - 1) : ℕ) * 2 ^ (-1074 : ℤ) := by
    rw [sub_eq_neg_add, two_zpow_add]
  rw [magnitude_eq, magnitude_eq, rank_ofRank h, rank_ofRank (Nat.lt_of_succ_lt h), units_succ, Nat.cast_add, add_mul, hpow]

/-! ## Binades -/

theorem two_pow_le_magnitude (h : x.exponentField.toNat ≠ 0) :
    2 ^ ((x.exponentField.toNat : ℤ) - 1023) ≤ x.magnitude := by
  have hexp : (x.exponentField.toNat : ℤ) - 1023 = x.exponent + 52 := by
    rw [exponent_eq]
    omega
  have hsig : 2 ^ 52 ≤ x.significand.toNat := by
    rw [toNat_significand, if_neg h]
    exact Nat.le_add_left _ _
  rw [hexp, magnitude]
  exact (two_zpow_add 52 _).trans_le (mul_le_mul_of_nonneg_right (Nat.cast_le.mpr hsig) (zpow_pos two_pos _).le)

theorem magnitude_lt_two_pow (x : Binary64) : x.magnitude < 2 ^ (x.exponent + 53) := by
  rw [magnitude]
  refine lt_of_lt_of_eq ?_ (two_zpow_add 53 _).symm
  exact mul_lt_mul_of_pos_right (Nat.cast_lt.mpr x.significand_lt) (zpow_pos two_pos _)

/-! ## Signs -/

/-- The magnitude with a sign. -/
def signed (s : Bool) (v : ℚ) : ℚ :=
  if s then -v else v

theorem toRat_eq (x : Binary64) : x.toRat = signed x.isNegative x.magnitude :=
  rfl

theorem toRat_of_isNegative (h : x.isNegative = false) : x.toRat = x.magnitude := by
  rw [toRat_eq, h, signed, if_neg Bool.false_ne_true]

theorem abs_signed (hv : 0 ≤ v) : |signed s v| = v := by
  rw [signed]
  split
  · rw [abs_neg, abs_of_nonneg hv]
  · exact abs_of_nonneg hv

theorem abs_toRat (x : Binary64) : |x.toRat| = x.magnitude :=
  abs_signed x.magnitude_nonneg

theorem toRat_sq (x : Binary64) : x.toRat ^ 2 = x.magnitude ^ 2 := by
  rw [← sq_abs, abs_toRat]

theorem signed_mul (s t : Bool) (v w : ℚ) : signed s v * signed t w = signed (s != t) (v * w) := by
  cases s <;> cases t <;> simp [signed]

theorem signed_div (s t : Bool) (v w : ℚ) : signed s v / signed t w = signed (s != t) (v / w) := by
  cases s <;> cases t <;> simp [signed, neg_div, div_neg]

theorem signed_mul_right (s : Bool) (v w : ℚ) : signed s v * w = signed s (v * w) := by
  cases s <;> simp [signed]

/-- Numbers of one sign are added, and others are subtracted. -/
theorem signed_add (s t : Bool) (v w : ℚ) : signed s v + signed t w = signed s (if s = t then v + w else v - w) := by
  cases s <;> cases t <;> simp [signed] <;> ring

theorem signed_eq_zero_iff : signed s v = 0 ↔ v = 0 := by
  cases s <;> simp [signed]

theorem rank_negate (x : Binary64) : x.negate.rank = x.rank := by
  rw [rank, rank, negate, UInt64.toNat_xor, Nat.xor_mod_two_pow]
  exact Nat.xor_zero _

theorem isNegative_negate (x : Binary64) : x.negate.isNegative = !x.isNegative := by
  have hx := x.bits.toNat_lt
  have hdiv : x.negate.bits.toNat / 2 ^ 63 = (x.bits.toNat / 2 ^ 63) ^^^ 1 := by
    rw [negate, UInt64.toNat_xor, Nat.xor_div_two_pow]
    rfl
  have htop : ∀ k < 2, k ^^^ 1 = 1 - k := by decide
  rw [htop _ (by omega)] at hdiv
  rw [Bool.eq_iff_iff, Bool.not_eq_true', ← Bool.not_eq_true, isNegative_iff, isNegative_iff]
  omega

theorem magnitude_negate (x : Binary64) : x.negate.magnitude = x.magnitude := by
  rw [magnitude_eq, magnitude_eq, rank_negate]

theorem isFinite_negate (x : Binary64) : x.negate.isFinite = x.isFinite := by
  rw [Bool.eq_iff_iff, isFinite_iff, isFinite_iff, toNat_exponentField, toNat_exponentField, rank_negate]

theorem isNaN_negate (x : Binary64) : x.negate.isNaN = x.isNaN := by
  rw [Bool.eq_iff_iff, isNaN_iff, isNaN_iff, rank_negate]

theorem negate_negate (x : Binary64) : x.negate.negate = x := by
  rw [negate, negate, UInt64.xor_assoc, UInt64.xor_self, UInt64.xor_zero]

theorem toRat_negate (x : Binary64) : x.negate.toRat = -x.toRat := by
  rw [toRat_eq, toRat_eq, isNegative_negate, magnitude_negate]
  cases x.isNegative <;> simp [signed]

/-! ## Parts -/

theorem toNat_ofParts {m : UInt64} (h : m.toNat < 2 ^ 63) (s : Bool) :
    (ofParts s m).bits.toNat = if s then m.toNat + 2 ^ 63 else m.toNat := by
  cases s with
  | false => rfl
  | true =>
      have hor : m.toNat ||| 2 ^ 63 = 2 ^ 63 + m.toNat := by
        have := Nat.two_pow_add_eq_or_of_lt h 1
        rw [Nat.mul_one] at this
        rw [this, Nat.or_comm]
      simpa [ofParts, UInt64.toNat_or, Nat.add_comm] using hor

theorem rank_ofParts {m : UInt64} (h : m.toNat < 2 ^ 63) (s : Bool) : (ofParts s m).rank = m.toNat := by
  rw [rank, toNat_ofParts h]
  cases s
  · exact Nat.mod_eq_of_lt h
  · simp only [if_true]
    omega

theorem isNegative_ofParts {m : UInt64} (h : m.toNat < 2 ^ 63) (s : Bool) : (ofParts s m).isNegative = s := by
  rw [Bool.eq_iff_iff, isNegative_iff, toNat_ofParts h]
  cases s
  · simp only [Bool.false_eq_true, if_false, iff_false]
    omega
  · simp

/-- A double is known by its sign and its rank. -/
theorem eq_of_rank_eq (hs : x.isNegative = y.isNegative) (h : x.rank = y.rank) : x = y := by
  rw [mk.injEq, ← UInt64.toNat_inj, toNat_bits, toNat_bits, hs, h]

theorem eq_infinity (h : x.isInfinite = true) : x = infinity x.isNegative := by
  have hinf : infinityBits.toNat < 2 ^ 63 := by decide
  refine eq_of_rank_eq (isNegative_ofParts hinf _).symm ?_
  rw [isInfinite_iff.mp h, infinity, rank_ofParts hinf]
  rfl

end RandomX.Binary64
