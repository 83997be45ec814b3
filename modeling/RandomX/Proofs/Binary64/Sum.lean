import Mathlib.Data.Nat.Cast.Field
import RandomX.Binary64.Arithmetic
import RandomX.Proofs.Binary64.Masks

/-!
# Sums

A sum of two finite doubles is the exact one, rounded. If one of them lies far below the other, what is rounded differs
from the exact sum, but only by what lies between two significands that are longer than any that is kept. So a small
addend moves a large number by one rank at most.
-/
namespace RandomX.Binary64

variable {x y : Binary64} {mode : Rounding} {s exact : Bool} {n : UInt64} {k : ℕ} {q : ℤ} {v : ℚ}

/-! ## Sticky bits -/

theorem toNat_withSticky {n : UInt64} (hn : n.toNat < 2 ^ 62) (exact : Bool) :
    (withSticky n exact).toNat = 2 * n.toNat + if exact then 0 else 1 := by
  have hdouble : (2 * n).toNat = 2 * n.toNat := by
    rw [UInt64.toNat_mul]
    exact Nat.mod_eq_of_lt (show 2 * n.toNat < 2 ^ 64 by omega)
  cases exact
  · change (2 * n + 1).toNat = 2 * n.toNat + 1
    rw [UInt64.toNat_add, hdouble]
    exact Nat.mod_eq_of_lt (show 2 * n.toNat + 1 < 2 ^ 64 by omega)
  · exact hdouble

/-- What is kept of a value, and whether that is all of it. -/
def IsKept (v : ℚ) (k : ℕ) (exact : Bool) (q : ℤ) : Prop :=
  if exact then v = k * 2 ^ q else k * 2 ^ q < v ∧ v < (k + 1 : ℕ) * 2 ^ q

theorem IsKept.nonneg (h : IsKept v k exact q) : 0 ≤ v := by
  have hk : (0 : ℚ) ≤ k * 2 ^ q := by positivity
  rw [IsKept] at h
  split at h
  · exact hk.trans h.ge
  · exact hk.trans h.1.le

theorem isKept_quotient {a d : ℕ} (hd : 0 < d) (hexact : exact = true ↔ a % d = 0) (q : ℤ) :
    IsKept (a / d * 2 ^ q) (a / d) exact q := by
  have hpos : (0 : ℚ) < 2 ^ q := zpow_pos two_pos _
  have hd' : (0 : ℚ) < d := Nat.cast_pos.mpr hd
  have hmod := Nat.div_add_mod a d
  rw [IsKept]
  split
  · rename_i h
    rw [Nat.cast_div (Nat.dvd_of_mod_eq_zero (hexact.mp h)) hd'.ne']
  · rename_i h
    rw [hexact] at h
    constructor
    · rw [mul_lt_mul_iff_left₀ hpos, lt_div_iff₀ hd', ← Nat.cast_mul, Nat.cast_lt, Nat.mul_comm]
      omega
    · rw [mul_lt_mul_iff_left₀ hpos, div_lt_iff₀ hd', ← Nat.cast_mul, Nat.cast_lt, Nat.mul_comm]
      exact Nat.lt_mul_div_succ a hd

theorem IsKept.add (h : IsKept v k exact q) (p : ℕ) : IsKept (p * 2 ^ q + v) (p + k) exact q := by
  rw [IsKept] at h ⊢
  push_cast at h ⊢
  split at h
  · rw [if_pos ‹_›, h]
    ring
  · rw [if_neg ‹_›]
    constructor <;> linarith

/-- A value that is taken from a whole number leaves its complement. -/
theorem IsKept.sub {p j : ℕ} (h : IsKept v k exact q) (hp : p = j + k + if exact then 0 else 1) :
    IsKept (p * 2 ^ q - v) j exact q := by
  rw [IsKept] at h ⊢
  split at h <;> rename_i hexact <;> subst hp
  · rw [if_pos hexact, if_pos hexact, h]
    push_cast
    ring
  · rw [if_neg hexact, if_neg hexact]
    push_cast at h ⊢
    constructor <;> linarith

/-- Doubled, what is kept stands for the value, and with an odd last bit for all values up to the next one. -/
theorem IsKept.sameCut {m : ℕ} (h : IsKept v k exact (q + 1)) (hm : m = 2 * k + if exact then 0 else 1)
    (hge : exact = true ∨ 2 ^ 52 ≤ k) : SameCut v (m * 2 ^ q) := by
  have hpos : (0 : ℚ) < 2 ^ q := zpow_pos two_pos q
  have hdouble (k : ℕ) : (k : ℚ) * 2 ^ (q + 1) = (2 * k : ℕ) * 2 ^ q := by
    have hpow := two_zpow_add 1 q
    rw [Nat.cast_one] at hpow
    rw [hpow]
    push_cast
    ring
  cases exact with
  | true =>
      have hv : v = m * 2 ^ q := by
        rw [h, hdouble, hm]
        rfl
      rw [hv]
      exact fun _ _ => ⟨Iff.rfl, Iff.rfl⟩
  | false =>
      have hm' : m = 2 * k + 1 := hm
      refine sameCut_of_between (hge.resolve_left nofun) h ⟨?_, ?_⟩
      · rw [hdouble, mul_lt_mul_iff_left₀ hpos, Nat.cast_lt]
        omega
      · rw [hdouble, mul_lt_mul_iff_left₀ hpos, Nat.cast_lt]
        omega

theorem IsKept.isRounding (h : IsKept v k exact (q + 1)) (hn : n.toNat = 2 * k + if exact then 0 else 1)
    (hlt : n.toNat < 2 ^ 62) (hge : exact = true ∨ 2 ^ 52 ≤ k) (mode : Rounding) (s : Bool) :
    IsRounding mode s v (round mode s n q) :=
  (round_isRounding mode s q hlt).of_sameCut (h.sameCut hn hge)

/-! ## Exact sums -/

theorem addSigned_isSignedRounding (mode : Rounding) {m n : UInt64} (h : m.toNat + n.toNat < 2 ^ 62) (s t : Bool)
    (q : ℤ) : IsSignedRounding mode ((signed s m.toNat + signed t n.toNat) * 2 ^ q) (addSigned mode s m t n q) := by
  have hround (u : Bool) (k : UInt64) (hk : k.toNat < 2 ^ 62) :
      IsSignedRounding mode (signed u (k.toNat * 2 ^ q)) (round mode u k q) :=
    ⟨u, k.toNat * 2 ^ q, rfl, by positivity, round_isRounding mode u q hk⟩
  rw [addSigned, signed_add, signed_mul_right]
  simp only [beq_iff_eq, UInt64.lt_iff_toNat_lt]
  split
  · have hadd : (m + n).toNat = m.toNat + n.toNat := by
      rw [UInt64.toNat_add]
      exact Nat.mod_eq_of_lt (h.trans (by decide))
    have hsum := hround s (m + n) (by omega)
    rwa [hadd, Nat.cast_add] at hsum
  · rename_i hst
    split
    · rename_i hlt
      have hsub := UInt64.toNat_sub_of_le m n (UInt64.le_iff_toNat_le.mpr hlt.le)
      have hdiff := hround s (m - n) (by omega)
      rwa [hsub, Nat.cast_sub hlt.le] at hdiff
    · split
      · rename_i hlt
        have hsub := UInt64.toNat_sub_of_le n m (UInt64.le_iff_toNat_le.mpr hlt.le)
        have hdiff := hround t (n - m) (by omega)
        have hneg : signed s ((m.toNat - n.toNat) * 2 ^ q) = signed t ((n.toNat - m.toNat) * 2 ^ q) := by
          obtain rfl : t = !s := Bool.eq_not_of_ne (Ne.symm hst)
          cases s <;> simp [signed] <;> ring
        rwa [hneg, ← Nat.cast_sub hlt.le, ← hsub]
      · have heq : m.toNat = n.toNat := by omega
        rw [heq, sub_self, zero_mul]
        exact ⟨mode == .down, 0, by rw [signed_eq_zero_iff.mpr rfl, signed_eq_zero_iff.mpr rfl], le_rfl, zero_isRounding⟩

theorem addSigned_of_lt {m n : UInt64} (h : n.toNat < m.toNat) (mode : Rounding) (s t : Bool) (q : ℤ) :
    addSigned mode s m t n q = round mode s (if s = t then m + n else m - n) q := by
  rw [addSigned, if_pos (UInt64.lt_iff_toNat_lt.mpr h)]
  by_cases hst : s = t
  · rw [if_pos (beq_iff_eq.mpr hst), if_pos hst]
  · rw [if_neg (mt beq_iff_eq.mp hst), if_neg hst]

/-- A small addend may be cut to half units, as a sticky bit in the sum stands for what was cut off. -/
theorem addSigned_of_isKept {m kept : UInt64} {p : ℕ} (hm : m.toNat = 2 * p) (hge : 2 ^ 53 ≤ p) (hlt : p < 2 ^ 60)
    (hkept : kept.toNat < 2 ^ 52) (hv : IsKept v kept.toNat exact (q + 1)) (mode : Rounding) (s t : Bool) :
    IsSignedRounding mode (signed s (p * 2 ^ (q + 1)) + signed t v)
      (addSigned mode s m t (withSticky kept exact) q) := by
  have hsticky := toNat_withSticky (hkept.trans (by decide)) exact
  have hlast : (if exact = true then 0 else 1) ≤ 1 := by split <;> decide
  rw [addSigned_of_lt (by omega), signed_add]
  split
  · have hadd : (m + withSticky kept exact).toNat = 2 * (p + kept.toNat) + if exact then 0 else 1 := by
      rw [UInt64.toNat_add, hm, hsticky, Nat.mod_eq_of_lt (by omega)]
      omega
    exact ⟨s, _, rfl, (hv.add p).nonneg, (hv.add p).isRounding hadd (by omega) (.inr (by omega)) mode s⟩
  · -- A difference keeps the complement, which is one less where something was cut off.
    obtain ⟨j, hj⟩ : ∃ j, p = j + kept.toNat + if exact then 0 else 1 :=
      ⟨p - kept.toNat - if exact then 0 else 1, by omega⟩
    have hsub : (m - withSticky kept exact).toNat = 2 * j + if exact then 0 else 1 := by
      rw [UInt64.toNat_sub_of_le _ _ (UInt64.le_iff_toNat_le.mpr (by omega)), hm, hsticky]
      omega
    exact ⟨s, _, rfl, (hv.sub hj).nonneg, (hv.sub hj).isRounding hsub (by omega) (.inr (by omega)) mode s⟩

/-- What is kept of a significand whose last bit lies `shift` places below. -/
theorem isKept_shifted {shift : ℕ} (y : Binary64) (hq : q = y.exponent + shift) :
    IsKept y.magnitude (y.significand >>> (min shift 63).toUInt64).toNat
      ((y.significand >>> (min shift 63).toUInt64) <<< (min shift 63).toUInt64 == y.significand) q := by
  obtain ⟨hkept, hrest⟩ := toNat_kept_rest y.significand (t := min shift 63) (by omega)
  obtain ⟨hdiv, hmod⟩ := div_mod_min shift (y.significand_lt.trans (by decide))
  have hval : y.magnitude = y.significand.toNat / (2 ^ shift : ℕ) * 2 ^ q := by
    have hne : ((2 ^ shift : ℕ) : ℚ) ≠ 0 := Nat.cast_ne_zero.mpr (Nat.two_pow_pos _).ne'
    rw [hq, two_zpow_add, ← mul_assoc, div_mul_cancel₀ _ hne, magnitude]
  rw [hkept, hdiv, hval]
  refine isKept_quotient (Nat.two_pow_pos _) ?_ q
  rw [beq_iff_eq, ← hmod, ← hrest, ← UInt64.toNat_zero, UInt64.toNat_inj, UInt64.sub_eq_iff_eq_add, UInt64.zero_add,
    eq_comm]

theorem addAligned_isSignedRounding (mode : Rounding) (h : y.exponent ≤ x.exponent) :
    IsSignedRounding mode (x.toRat + y.toRat) (addAligned mode x y) := by
  have hx := x.significand_lt
  have hy := y.significand_lt
  obtain ⟨d, hd⟩ : ∃ d : ℕ, x.exponent = y.exponent + d := ⟨(x.exponent - y.exponent).toNat, by omega⟩
  have hdist : (x.exponent - y.exponent).toNat = d := by omega
  rw [addAligned, hdist, toRat_eq, toRat_eq]
  simp only
  split
  · rename_i hle
    have hbound : x.significand.toNat * 2 ^ d ≤ x.significand.toNat * 2 ^ 8 :=
      Nat.mul_le_mul_left _ (Nat.pow_le_pow_right two_pos hle)
    have hshift : (x.significand <<< d.toUInt64).toNat = x.significand.toNat * 2 ^ d :=
      toNat_shiftLeft_of_lt (UInt64.toNat_ofNat_of_lt' (show d < 2 ^ 64 by omega)) (by omega) (by omega)
    have hmag : x.magnitude = (x.significand <<< d.toUInt64).toNat * 2 ^ y.exponent := by
      rw [magnitude, hd, two_zpow_add, hshift, ← mul_assoc, Nat.cast_mul]
    have hsum := addSigned_isSignedRounding mode (m := x.significand <<< d.toUInt64) (n := y.significand) (by omega)
      x.isNegative y.isNegative y.exponent
    rwa [add_mul, signed_mul_right, signed_mul_right, ← hmag] at hsum
  · rename_i hgt
    have hge : 2 ^ 52 ≤ x.significand.toNat := by
      -- The exponent is above the least one, so the number is normal.
      have hexp := x.exponent_eq
      have hexp' := y.exponent_eq
      rw [toNat_significand, if_neg (by omega)]
      exact Nat.le_add_left _ _
    have hshift : (x.significand <<< 8).toNat = 2 * (x.significand.toNat * 2 ^ 7) := by
      rw [toNat_shiftLeft_of_lt (n := 8) rfl (by decide) (by omega)]
      omega
    have hmag : x.magnitude = (x.significand.toNat * 2 ^ 7 : ℕ) * 2 ^ (x.exponent - 8 + 1) := by
      have hpow := two_zpow_add 7 (x.exponent - 8 + 1)
      rw [show x.exponent - 8 + 1 + (7 : ℕ) = x.exponent by omega] at hpow
      rw [magnitude, hpow, ← mul_assoc, Nat.cast_mul]
    have hlt : (y.significand >>> (min (d - 7) 63).toUInt64).toNat < 2 ^ 52 := by
      have hpow : 2 ^ 1 ≤ 2 ^ min (d - 7) 63 := Nat.pow_le_pow_right two_pos (by omega)
      rw [(toNat_kept_rest y.significand (by omega)).1, Nat.div_lt_iff_lt_mul (Nat.two_pow_pos _)]
      omega
    have hq : x.exponent - 8 + 1 = y.exponent + (d - 7 : ℕ) := by omega
    rw [hmag]
    exact addSigned_of_isKept hshift (by omega) (by omega) hlt (isKept_shifted y hq) mode x.isNegative y.isNegative

theorem addFinite_isSignedRounding (mode : Rounding) (x y : Binary64) :
    IsSignedRounding mode (x.toRat + y.toRat) (addFinite mode x y) := by
  rw [addFinite]
  split
  · rw [add_comm]
    exact addAligned_isSignedRounding mode (le_of_lt ‹_›)
  · exact addAligned_isSignedRounding mode (not_lt.mp ‹_›)

theorem add_eq_addFinite (hx : x.isFinite = true) (hy : y.isFinite = true) (mode : Rounding) :
    x.add mode y = x.addFinite mode y := by
  rw [add, hx, hy]
  rfl

/-! ## Ranks -/

/-- A sum does not pass the rank after `r` if the addend is no more than the last bit at `r`. -/
theorem rank_add_le (mode : Rounding) {r : Nat} (hx : x.isFinite = true) (hy : y.isFinite = true) (hle : x.rank ≤ r)
    (hr : r + 1 < 2047 * 2 ^ 52) (h : y.magnitude ≤ 2 ^ (((r / 2 ^ 52 - 1 : ℕ) : ℤ) - 1074)) :
    (x.add mode y).rank ≤ r + 1 := by
  have hrank := rank_ofRank (m := r + 1) (by omega)
  have hfinite : (ofRank (r + 1)).isFinite = true := by
    rw [isFinite_iff, toNat_exponentField, hrank]
    omega
  have hmag : x.magnitude ≤ (ofRank r).magnitude := by
    rwa [magnitude_le_iff, rank_ofRank (by omega)]
  have hbound : |x.toRat + y.toRat| ≤ (ofRank (r + 1)).magnitude := by
    calc |x.toRat + y.toRat| ≤ x.magnitude + y.magnitude := x.abs_toRat ▸ y.abs_toRat ▸ abs_add_le _ _
      _ ≤ (ofRank (r + 1)).magnitude := by
          rw [magnitude_ofRank_succ (by omega)]
          exact add_le_add hmag h
  have hround := (addFinite_isSignedRounding mode x y).le hfinite hbound
  rw [add_eq_addFinite hx hy]
  rwa [magnitude_le_iff, hrank] at hround

/-- A sum does not fall below the rank before that of `x` if the addend is no more than half its last bit. -/
theorem le_rank_add (mode : Rounding) (hx : x.isFinite = true) (hy : y.isFinite = true)
    (h : y.magnitude ≤ 2 ^ (x.exponent - 1)) : x.rank ≤ (x.add mode y).rank + 1 := by
  rcases Nat.eq_zero_or_pos x.rank with h0 | hpos
  · omega
  · obtain ⟨r, hr⟩ : ∃ r, x.rank = r + 1 := ⟨x.rank - 1, by omega⟩
    have hlt := x.rank_lt
    have hrank := rank_ofRank (m := r) (by omega)
    have hfield := isFinite_iff.mp hx
    have hexponent := x.exponent_eq
    rw [toNat_exponentField] at hfield hexponent
    have hfinite : (ofRank r).isFinite = true := by
      rw [isFinite_iff, toNat_exponentField, hrank]
      omega
    -- Below a power of two the last bit is half of that above.
    have hhalf : (2 : ℚ) ^ (x.exponent - 1) ≤ 2 ^ (((r / 2 ^ 52 - 1 : ℕ) : ℤ) - 1074) :=
      zpow_le_zpow_right₀ one_le_two (by omega)
    have hmag : x.magnitude = (ofRank r).magnitude + 2 ^ (((r / 2 ^ 52 - 1 : ℕ) : ℤ) - 1074) := by
      rw [← magnitude_ofRank_succ (by omega), magnitude_eq, magnitude_eq, rank_ofRank (by omega), hr]
    have hbound : (ofRank r).magnitude ≤ |x.toRat + y.toRat| := by
      have hsub := abs_sub_abs_le_abs_sub x.toRat (-y.toRat)
      rw [abs_neg, sub_neg_eq_add, abs_toRat, abs_toRat] at hsub
      linarith
    have hround := (addFinite_isSignedRounding mode x y).ge hfinite hbound
    rw [magnitude_le_iff, hrank] at hround
    rw [add_eq_addFinite hx hy]
    omega

end RandomX.Binary64
