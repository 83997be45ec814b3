import Mathlib.Data.Nat.Bitwise
import RandomX.Binary64.Masks
import RandomX.Proofs.Binary64.Integer

/-!
# Register patterns

The ranges of the doubles that fill registers: constants, converted integers, and integers under a mask. A mask decides
the sign and the high bits of the exponent, whatever the integer was.
-/
namespace RandomX

open Binary64

/-! ## Masks -/

/-- The mask alone puts a pattern between two powers of two. -/
theorem toNat_exponentMask (entropy : UInt64) :
    0x300 * 2 ^ 52 ≤ (exponentMask entropy).toNat ∧ (exponentMask entropy).toNat < 2 ^ 62 := by
  have htop : (entropy >>> 60).toNat < 2 ^ 4 := by
    have hlt := entropy.toNat_lt
    have hdiv : (entropy >>> 60).toNat = entropy.toNat / 2 ^ 60 := toNat_shiftRight_of_lt rfl (by decide)
    omega
  have hfour : ((entropy >>> 60) <<< 4).toNat < 2 ^ 8 := by
    rw [toNat_shiftLeft_of_lt (n := 4) rfl (by decide) (by omega)]
    omega
  have hfield : ((0x300 : UInt64) ||| ((entropy >>> 60) <<< 4)).toNat < 2 ^ 10 := by
    rw [UInt64.toNat_or]
    exact Nat.or_lt_two_pow (by decide) (hfour.trans (by decide))
  have hge : 0x300 ≤ ((0x300 : UInt64) ||| ((entropy >>> 60) <<< 4)).toNat := by
    rw [UInt64.toNat_or]
    exact Nat.left_le_or
  have hstatic : (staticExponent entropy).toNat = ((0x300 : UInt64) ||| ((entropy >>> 60) <<< 4)).toNat * 2 ^ 52 :=
    toNat_shiftLeft_of_lt rfl (by decide) (by omega)
  have hlow : (entropy &&& lowFractionMask).toNat < 2 ^ 62 := by
    rw [UInt64.toNat_and]
    exact Nat.and_le_right.trans_lt (by decide)
  rw [exponentMask, UInt64.toNat_or, hstatic]
  exact ⟨(Nat.mul_le_mul_right _ hge).trans Nat.right_le_or, Nat.or_lt_two_pow hlow (by omega)⟩

namespace Binary64

variable {x : Binary64}

/-- The pattern is positive with an exponent field that only a mask can force. -/
structure IsForced (x : Binary64) : Prop where
  isNegative : x.isNegative = false
  le_exponentField : 0x300 ≤ x.exponentField.toNat
  exponentField_le : x.exponentField.toNat ≤ 0x3FF

/-- Under a mask every pattern is forced, those of zero and of negative numbers too. -/
theorem masked_isForced (x : Binary64) (entropy : UInt64) : (x.masked (exponentMask entropy)).IsForced := by
  obtain ⟨hlo, hhi⟩ := toNat_exponentMask entropy
  have hbits : (x.masked (exponentMask entropy)).bits.toNat =
      (x.bits &&& dynamicBits).toNat ||| (exponentMask entropy).toNat := UInt64.toNat_or _ _
  have hdynamic : (x.bits &&& dynamicBits).toNat < 2 ^ 62 := by
    rw [UInt64.toNat_and]
    exact Nat.and_le_right.trans_lt (by decide)
  have hge : 0x300 * 2 ^ 52 ≤ (x.masked (exponentMask entropy)).bits.toNat := by
    rw [hbits]
    exact hlo.trans Nat.right_le_or
  have hlt : (x.masked (exponentMask entropy)).bits.toNat < 2 ^ 62 := by
    rw [hbits]
    exact Nat.or_lt_two_pow hdynamic hhi
  refine ⟨?_, ?_, ?_⟩
  · rw [← Bool.not_eq_true, isNegative_iff]
    omega
  · rw [toNat_exponentField, rank]
    omega
  · rw [toNat_exponentField, rank]
    omega

end Binary64

/-! ## Constants -/

theorem toNat_smallPositive (entropy : UInt64) :
    1023 * 2 ^ 52 ≤ (smallPositive entropy).bits.toNat ∧ (smallPositive entropy).bits.toNat < 1055 * 2 ^ 52 := by
  have htop : (entropy >>> 59).toNat < 2 ^ 5 := by
    have hlt := entropy.toNat_lt
    have hdiv : (entropy >>> 59).toNat = entropy.toNat / 2 ^ 59 := toNat_shiftRight_of_lt rfl (by decide)
    omega
  have hsum : ((entropy >>> 59) + 1023).toNat = (entropy >>> 59).toNat + 1023 := by
    rw [UInt64.toNat_add]
    exact Nat.mod_eq_of_lt (show _ + 1023 < 2 ^ 64 by omega)
  have hfield : (((entropy >>> 59) + 1023) &&& exponentFieldMask).toNat = (entropy >>> 59).toNat + 1023 := by
    have hand : (((entropy >>> 59) + 1023) &&& exponentFieldMask).toNat =
        ((entropy >>> 59).toNat + 1023) &&& (2 ^ 11 - 1) := by
      rw [UInt64.toNat_and, hsum]
      rfl
    rw [hand, Nat.and_two_pow_sub_one_eq_mod]
    omega
  have hfraction : (entropy &&& fractionMask).toNat < 2 ^ 52 := by
    rw [UInt64.toNat_and]
    exact Nat.and_le_right.trans_lt (by decide)
  have hbits : (smallPositive entropy).bits.toNat =
      2 ^ 52 * ((entropy >>> 59).toNat + 1023) + (entropy &&& fractionMask).toNat := by
    rw [Nat.two_pow_add_eq_or_of_lt hfraction, smallPositive, UInt64.toNat_or,
      toNat_shiftLeft_of_lt (n := 52) rfl (by decide) (by omega), hfield, Nat.mul_comm (2 ^ 52)]
  omega

namespace Binary64

variable {x : Binary64}

/-- The number is finite, not below one, and below `2 ^ 32`. -/
structure IsSmallPositive (x : Binary64) : Prop where
  isFinite : x.isFinite = true
  one_le : 1 ≤ x.toRat
  lt : x.toRat < 2 ^ 32

theorem smallPositive_isSmallPositive (entropy : UInt64) : (smallPositive entropy).IsSmallPositive := by
  obtain ⟨hlo, hhi⟩ := toNat_smallPositive entropy
  have hfield : 1023 ≤ (smallPositive entropy).exponentField.toNat ∧
      (smallPositive entropy).exponentField.toNat ≤ 1054 := by
    rw [toNat_exponentField, rank]
    omega
  have hsign : (smallPositive entropy).isNegative = false := by
    rw [← Bool.not_eq_true, isNegative_iff]
    omega
  have hexp := (smallPositive entropy).exponent_eq
  have hrat : (smallPositive entropy).toRat = (smallPositive entropy).magnitude := by
    rw [toRat, hsign]
    rfl
  refine ⟨isFinite_iff.mpr (by omega), ?_, ?_⟩
  · rw [hrat]
    refine le_trans ?_ (two_pow_le_magnitude (by omega))
    exact one_le_zpow₀ one_le_two (by omega)
  · rw [hrat]
    refine (magnitude_lt_two_pow _).trans_le ?_
    exact (zpow_le_zpow_right₀ one_le_two (show _ ≤ ((32 : ℕ) : ℤ) by omega)).trans_eq (zpow_natCast 2 32)

/-! ## Addends -/

/-- The number is finite and its magnitude is below `2 ^ 32`. -/
def IsAddend (x : Binary64) : Prop :=
  x.exponentField.toNat ≤ 1054

theorem IsSmallPositive.isNegative (h : x.IsSmallPositive) : x.isNegative = false := by
  rw [← Bool.not_eq_true]
  intro hs
  have hle := h.one_le
  rw [toRat, if_pos hs] at hle
  linarith [x.magnitude_nonneg]

theorem IsSmallPositive.magnitude_eq (h : x.IsSmallPositive) : x.magnitude = x.toRat := by
  rw [toRat, h.isNegative]
  rfl

theorem IsSmallPositive.isAddend (h : x.IsSmallPositive) : x.IsAddend := by
  have hlt : x.magnitude < 2 ^ ((32 : ℕ) : ℤ) := by
    rw [zpow_natCast, h.magnitude_eq]
    exact h.lt
  by_contra hne
  rw [IsAddend] at hne
  have hge := two_pow_le_magnitude (x := x) (by omega)
  have := (zpow_lt_zpow_iff_right₀ one_lt_two).mp (hge.trans_lt hlt)
  omega

theorem round_isAddend {n : UInt64} (hn : n.toNat ≤ 2 ^ 31) (s : Bool) : (round .nearest s n 0).IsAddend := by
  have hround : IsRounding .nearest s (n.toNat * 2 ^ (0 : ℤ)) (round .nearest s n 0) :=
    round_isRounding .nearest s 0 (by omega)
  -- The double of `2 ^ 31` bounds the rounded integer.
  have hbound : (n.toNat : ℚ) * 2 ^ (0 : ℤ) ≤ (Binary64.mk 0x41E0000000000000).magnitude := by
    rw [zpow_zero, mul_one]
    refine le_trans ?_ (two_pow_le_magnitude (by decide))
    exact (Nat.cast_le.mpr hn).trans_eq (by rfl)
  have hrank := magnitude_le_iff.mp (hround.le _ (by decide) hbound)
  have hval : (Binary64.mk 0x41E0000000000000).rank = 1054 * 2 ^ 52 := by decide
  rw [IsAddend, toNat_exponentField]
  omega

theorem ofInt32_isAddend (w : UInt32) : (ofInt32 w).IsAddend := by
  obtain ⟨n, -, hle, heq⟩ := exists_ofInt32_eq_round w
  rw [heq]
  exact round_isAddend hle _

theorem IsAddend.negate (h : x.IsAddend) : x.negate.IsAddend := by
  rw [IsAddend, toNat_exponentField] at h ⊢
  rwa [rank_negate]

/-! ## Scaling -/

/-- Scaling turns the low four bits of the exponent over and leaves the others and the fraction alone. -/
theorem rank_scaled (x : Binary64) :
    x.scaled.rank / 2 ^ 52 / 16 = x.rank / 2 ^ 52 / 16 ∧ x.scaled.rank / 2 ^ 52 % 16 = 15 - x.rank / 2 ^ 52 % 16 ∧
      x.scaled.rank % 2 ^ 52 = x.rank % 2 ^ 52 := by
  have hrank : x.scaled.rank = x.rank ^^^ (15 * 2 ^ 52) := by
    rw [rank, rank, scaled, UInt64.toNat_xor, Nat.xor_mod_two_pow]
    rfl
  have hfield : x.scaled.rank / 2 ^ 52 = (x.rank / 2 ^ 52) ^^^ 15 := by
    rw [hrank, Nat.xor_div_two_pow, Nat.mul_div_cancel _ (Nat.two_pow_pos 52)]
  refine ⟨?_, ?_, ?_⟩
  · rw [hfield, show 16 = 2 ^ 4 from rfl, Nat.xor_div_two_pow]
    exact Nat.xor_zero _
  · have hlow (k : Nat) (hk : k < 16) : k ^^^ 15 = 15 - k := by
      revert k
      decide
    rw [hfield, show 16 = 2 ^ 4 from rfl, Nat.xor_mod_two_pow]
    exact hlow _ (Nat.mod_lt _ (by decide))
  · rw [hrank, Nat.xor_mod_two_pow]
    exact Nat.xor_zero _

end Binary64

end RandomX
