import Mathlib.Tactic.FieldSimp
import RandomX.Proofs.Binary64.Sum
import RandomX.Proofs.Word

/-!
# Products and quotients

Products and quotients of finite doubles are the exact ones, rounded. So a positive number that is not a NaN stays one
when it is multiplied by a number of at least one or divided by one below two. Only the division lets a power of two
below it go down, by one each time.
-/
namespace RandomX.Binary64

variable {x y : Binary64} {mode : Rounding} {s exact : Bool} {n : UInt64} {k q : ℤ} {v : ℚ}

/-! ## Full significands -/

theorem shortfall_spec (h : x.rank ≠ 0) : x.significand.toNat.log2 + x.shortfall.toNat = 52 := by
  have hlt := x.significand_lt
  have hsig := x.toNat_significand
  have hrank := x.rank_eq
  have hfraction := x.fraction_lt
  rw [shortfall]
  by_cases h0 : x.exponentField.toNat = 0
  · rw [if_pos h0] at hsig
    have hlog : x.significand.toNat.log2 < 52 := (Nat.log2_lt (by omega)).mpr (by omega)
    have hle : x.significand.log2 ≤ 52 := by
      rw [UInt64.le_iff_toNat_le, toNat_log2]
      exact hlog.le
    rw [if_pos (exponentField_eq_zero_iff.mpr h0), UInt64.toNat_sub_of_le _ _ hle, toNat_log2]
    exact Nat.add_sub_cancel' hlog.le
  · rw [if_neg h0] at hsig
    rw [if_neg (mt exponentField_eq_zero_iff.mp h0), UInt64.toNat_zero, Nat.add_zero]
    exact (Nat.log2_eq_iff (by omega)).mpr ⟨by omega, hlt⟩

/-- The full significand of a number other than zero has 53 bits, and the full exponent is that of its last one. -/
theorem fullSignificand_spec (h : x.rank ≠ 0) : 2 ^ 52 ≤ x.fullSignificand.toNat ∧ x.fullSignificand.toNat < 2 ^ 53 ∧
    x.magnitude = x.fullSignificand.toNat * 2 ^ x.fullExponent := by
  have hlog := shortfall_spec h
  have hne : x.significand.toNat ≠ 0 := by
    intro h0
    rw [toNat_significand] at h0
    have := x.rank_eq
    split at h0 <;> omega
  obtain ⟨hnat, hlt, hfull⟩ := toNat_shiftLeft_of_fits (n := x.significand) (d := x.shortfall.toNat) hne hlog.le
  rw [show x.shortfall.toNat.toUInt64 = x.shortfall from UInt64.ofNat_toNat] at hnat
  rw [fullSignificand, hnat]
  refine ⟨hfull hlog, hlt, ?_⟩
  have hexp : x.exponent = x.fullExponent + x.shortfall.toNat := by
    rw [fullExponent, sub_add_cancel]
  rw [magnitude, hexp, two_zpow_add, ← mul_assoc, Nat.cast_mul]

/-- The full significand of any number, zero included. -/
theorem magnitude_eq_full (x : Binary64) : x.magnitude = x.fullSignificand.toNat * 2 ^ x.fullExponent ∧
    x.fullSignificand.toNat < 2 ^ 53 ∧ (x.fullSignificand.toNat = 0 ∨ 2 ^ 52 ≤ x.fullSignificand.toNat) := by
  by_cases h : x.rank = 0
  · have hsig : x.significand = 0 := by
      rw [← UInt64.toNat_inj, toNat_significand, toNat_exponentField, toNat_fraction, h]
      rfl
    have hfull : x.fullSignificand.toNat = 0 := by
      rw [fullSignificand, hsig, UInt64.zero_shiftLeft]
      rfl
    rw [magnitude, hsig, hfull]
    simp
  · obtain ⟨hge, hlt, hmag⟩ := fullSignificand_spec h
    exact ⟨hmag, hlt, .inr hge⟩

/-! ## Exact products and quotients -/

/-- A quotient of at least 53 bits, or of nothing, is rounded as if no bit had been dropped. -/
theorem round_quotient {a d : ℕ} (hd : 0 < d) (hquo : n.toNat = a / d) (hn : n.toNat < 2 ^ 61)
    (hexact : exact = true ↔ a % d = 0) (hge : a = 0 ∨ 2 ^ 52 ≤ n.toNat) (hv : v = a / d * 2 ^ (q + 1))
    (mode : Rounding) (s : Bool) : IsRounding mode s v (round mode s (withSticky n exact) q) := by
  have hsticky := toNat_withSticky (hn.trans (by decide)) exact
  have hkept := isKept_quotient hd hexact (q + 1)
  rw [← hv, ← hquo] at hkept
  refine hkept.isRounding hsticky (by rw [hsticky]; split <;> omega) (hge.imp_left ?_) mode s
  rintro rfl
  exact hexact.mpr (Nat.zero_mod d)

theorem mulFinite_isRounding (mode : Rounding) (s : Bool) (x y : Binary64) :
    IsRounding mode s (x.magnitude * y.magnitude) (mulFinite mode s x y) := by
  obtain ⟨hx, hxlt, hxge⟩ := x.magnitude_eq_full
  obtain ⟨hy, hylt, hyge⟩ := y.magnitude_eq_full
  have hm : (x.fullSignificand <<< 11).toNat = x.fullSignificand.toNat * 2 ^ 11 :=
    toNat_shiftLeft_of_lt rfl (by decide) (by omega)
  have hn : (y.fullSignificand <<< 8).toNat = y.fullSignificand.toNat * 2 ^ 8 :=
    toNat_shiftLeft_of_lt rfl (by decide) (by omega)
  have hhigh := toNat_mulHigh (x.fullSignificand <<< 11) (y.fullSignificand <<< 8)
  have hlow : (x.fullSignificand <<< 11) * (y.fullSignificand <<< 8) = 0 ↔
      x.fullSignificand.toNat * 2 ^ 11 * (y.fullSignificand.toNat * 2 ^ 8) % 2 ^ 64 = 0 := by
    rw [← UInt64.toNat_inj, UInt64.toNat_mul, hm, hn]
    rfl
  have hlt : x.fullSignificand.toNat * 2 ^ 11 * (y.fullSignificand.toNat * 2 ^ 8) < 2 ^ 64 * 2 ^ 61 :=
    Nat.mul_lt_mul'' (by omega) (by omega)
  rw [hm, hn] at hhigh
  rw [mulFinite]
  refine round_quotient (Nat.two_pow_pos 64) hhigh (by omega) (by rw [beq_iff_eq, hlow]) ?_ ?_ mode s
  · rcases hxge with h0 | hxge
    · exact .inl (by rw [h0, Nat.zero_mul, Nat.zero_mul])
    · rcases hyge with h0 | hyge
      · exact .inl (by rw [h0, Nat.zero_mul, Nat.mul_zero])
      · have hge : 2 ^ 63 * 2 ^ 60 ≤ x.fullSignificand.toNat * 2 ^ 11 * (y.fullSignificand.toNat * 2 ^ 8) :=
          Nat.mul_le_mul (by omega) (by omega)
        exact .inr (by omega)
  · have hexp : x.fullExponent + y.fullExponent + 44 + 1 = x.fullExponent + y.fullExponent + (45 : ℕ) := by omega
    rw [hx, hy, hexp, two_zpow_add, zpow_add₀ two_ne_zero]
    push_cast
    ring

theorem quotient_lt {m n : ℕ} (hm : m < 2 ^ 53) (hn : 2 ^ 52 ≤ n) : m * 2 ^ 57 / n < 2 ^ 58 := by
  rw [Nat.div_lt_iff_lt_mul (Nat.lt_of_lt_of_le (Nat.two_pow_pos 52) hn)]
  calc m * 2 ^ 57 < 2 ^ 58 * 2 ^ 52 := by omega
    _ ≤ 2 ^ 58 * n := Nat.mul_le_mul_left _ hn

theorem le_quotient {m n : ℕ} (hm : 2 ^ 52 ≤ m) (hn : 2 ^ 52 ≤ n) (hlt : n < 2 ^ 53) : 2 ^ 56 ≤ m * 2 ^ 57 / n := by
  rw [Nat.le_div_iff_mul_le (Nat.lt_of_lt_of_le (Nat.two_pow_pos 52) hn)]
  calc 2 ^ 56 * n ≤ 2 ^ 56 * 2 ^ 53 := Nat.mul_le_mul_left _ hlt.le
    _ ≤ m * 2 ^ 57 := by omega

theorem divFinite_isRounding (mode : Rounding) (s : Bool) (hy : y.rank ≠ 0) :
    IsRounding mode s (x.magnitude / y.magnitude) (divFinite mode s x y) := by
  obtain ⟨hx, hxlt, hxge⟩ := x.magnitude_eq_full
  obtain ⟨hyge, hylt, hy⟩ := fullSignificand_spec hy
  have hn : x.fullSignificand.toNat <<< 57 = x.fullSignificand.toNat * 2 ^ 57 := Nat.shiftLeft_eq _ _
  have hquo := quotient_lt hxlt hyge
  have hnat : (x.fullSignificand.toNat * 2 ^ 57 / y.fullSignificand.toNat).toUInt64.toNat =
      x.fullSignificand.toNat * 2 ^ 57 / y.fullSignificand.toNat :=
    UInt64.toNat_ofNat_of_lt' (hquo.trans (by decide))
  rw [divFinite]
  simp only [hn]
  refine round_quotient (Nat.lt_of_lt_of_le (Nat.two_pow_pos 52) hyge) hnat (by omega) beq_iff_eq ?_ ?_ mode s
  · rcases hxge with h0 | hxge
    · exact .inl (by rw [h0, Nat.zero_mul])
    · exact .inr (by rw [hnat]; exact le_trans (by decide) (le_quotient hxge hyge hylt))
  · obtain ⟨p, hp⟩ : ∃ p, p = x.fullExponent - y.fullExponent - 58 + 1 := ⟨_, rfl⟩
    have hexp : x.fullExponent = p + y.fullExponent + (57 : ℕ) := by omega
    have hpow : (2 : ℚ) ^ y.fullExponent ≠ 0 := (zpow_pos two_pos _).ne'
    rw [hx, hy, ← hp, hexp, two_zpow_add, zpow_add₀ two_ne_zero, Nat.cast_mul]
    generalize (2 ^ 57 : ℕ) = c
    field_simp

/-! ## Lower bounds -/

/-- The number is positive, possibly infinite, and not below a power of two. -/
structure IsAtLeast (k : ℤ) (x : Binary64) : Prop where
  isNegative : x.isNegative = false
  isNaN : x.isNaN = false
  le : 2 ^ k ≤ x.magnitude

theorem IsAtLeast.rank_ne_zero (h : x.IsAtLeast k) : x.rank ≠ 0 := by
  intro h0
  have hle := h.le
  rw [magnitude_eq, h0] at hle
  have hpos : (0 : ℚ) < 2 ^ k := zpow_pos two_pos _
  exact absurd (hpos.trans_le hle) (by simp [units])

theorem IsAtLeast.isZero (h : x.IsAtLeast k) : x.isZero = false :=
  isZero_eq_false_iff.mpr h.rank_ne_zero

theorem IsAtLeast.mono {j : ℤ} (h : x.IsAtLeast k) (hj : j ≤ k) : x.IsAtLeast j :=
  ⟨h.isNegative, h.isNaN, (zpow_le_zpow_right₀ one_le_two hj).trans h.le⟩

theorem IsSmallPositive.isAtLeast (h : x.IsSmallPositive) : x.IsAtLeast 0 := by
  refine ⟨h.isNegative, isNaN_of_isFinite h.isFinite, ?_⟩
  rw [zpow_zero, h.magnitude_eq]
  exact h.one_le

theorem IsForced.isFinite (h : x.IsForced) : x.isFinite = true :=
  isFinite_iff.mpr (h.exponentField_le.trans (by decide))

theorem IsForced.isAtLeast (h : x.IsForced) : x.IsAtLeast (-255) := by
  have hle := h.le_exponentField
  refine ⟨h.isNegative, isNaN_of_isFinite h.isFinite, ?_⟩
  exact (zpow_le_zpow_right₀ one_le_two (by omega)).trans (two_pow_le_magnitude (by omega))

theorem IsForced.magnitude_lt (h : x.IsForced) : x.magnitude < 2 := by
  have hle := h.exponentField_le
  have hexp := x.exponent_eq
  calc x.magnitude < 2 ^ (x.exponent + 53) := x.magnitude_lt_two_pow
    _ ≤ 2 ^ (1 : ℤ) := zpow_le_zpow_right₀ one_le_two (by omega)
    _ = 2 := zpow_one 2

theorem exists_magnitude_eq_two_zpow (hlo : -1074 ≤ k) (hhi : k ≤ 1023) :
    ∃ z : Binary64, z.isFinite = true ∧ z.magnitude = 2 ^ k := by
  -- The rank of the power, which is a normal number or has a single bit of its fraction.
  obtain ⟨m, j, hm, hlt, hk⟩ : ∃ m j : ℕ, units m = 2 ^ j ∧ m ≤ 2046 * 2 ^ 52 ∧ k = -1074 + j := by
    by_cases hnormal : -1022 ≤ k
    · obtain ⟨j, hj⟩ : ∃ j : ℕ, k = -1022 + j := ⟨(k + 1022).toNat, by omega⟩
      refine ⟨j * 2 ^ 52 + 2 ^ 52, 52 + j, ?_, by omega, by omega⟩
      rw [units_pattern (by decide) (.inl le_rfl), pow_add]
    · obtain ⟨j, hj⟩ : ∃ j : ℕ, k = -1074 + j := ⟨(k + 1074).toNat, by omega⟩
      have hpow : 2 ^ j < 2 ^ 52 := Nat.pow_lt_pow_right one_lt_two (by omega)
      exact ⟨2 ^ j, j, if_pos hpow, by omega, hj⟩
  have hrank := rank_ofRank (m := m) (by omega)
  refine ⟨ofRank m, ?_, ?_⟩
  · rw [isFinite_iff, toNat_exponentField, hrank]
    omega
  · rw [magnitude_eq, hrank, hm, hk, two_zpow_add]

/-- Rounding a value keeps the powers of two below it. -/
theorem IsRounding.isAtLeast (h : IsRounding mode false v x) (hlo : -1074 ≤ k) (hhi : k ≤ 1023) (hv : 2 ^ k ≤ v) :
    x.IsAtLeast k := by
  obtain ⟨z, hz, hmag⟩ := exists_magnitude_eq_two_zpow hlo hhi
  refine ⟨h.isNegative, h.isNaN, ?_⟩
  rw [← hmag] at hv ⊢
  exact h.ge z hz hv

theorem infinity_isAtLeast (hk : k ≤ 0) : (infinity false).IsAtLeast k := by
  refine ⟨by decide, by decide, (zpow_le_zpow_right₀ one_le_two hk).trans ?_⟩
  refine le_trans ?_ (two_pow_le_magnitude (by decide))
  exact zpow_le_zpow_right₀ one_le_two (by decide)

theorem IsAtLeast.isFinite_or (h : x.IsAtLeast k) : x.isFinite = true ∨ x.isFinite = false ∧ x.isInfinite = true := by
  cases x.kind with
  | finite hx => exact .inl hx
  | infinite hx _ hinf => exact .inr ⟨hx, hinf⟩
  | nan _ hnan =>
      rw [h.isNaN] at hnan
      cases hnan

theorem IsAtLeast.mul (h : x.IsAtLeast k) (hlo : -1074 ≤ k) (hhi : k ≤ 0) (hy : y.IsAtLeast 0) (hf : y.isFinite = true)
    (mode : Rounding) : (x.mul mode y).IsAtLeast k := by
  rw [Binary64.mul, h.isNegative, hy.isNegative, hf]
  simp only [bne_self_eq_false, Bool.and_true]
  rcases h.isFinite_or with hx | ⟨hx, _⟩
  · have hle : 2 ^ k ≤ x.magnitude * y.magnitude := by
      refine h.le.trans (le_mul_of_one_le_right x.magnitude_nonneg ?_)
      rw [← zpow_zero (2 : ℚ)]
      exact hy.le
    rw [if_pos hx]
    exact (mulFinite_isRounding mode false x y).isAtLeast hlo (hhi.trans (by decide)) hle
  · rw [hx, h.isNaN, h.isZero, hy.isNaN, hy.isZero]
    exact infinity_isAtLeast hhi

theorem IsAtLeast.div {j : ℤ} (h : x.IsAtLeast k) (hlo : -1074 ≤ k - 1) (hhi : k ≤ 1) (hy : y.IsAtLeast j)
    (hf : y.isFinite = true) (hlt : y.magnitude < 2) (mode : Rounding) : (x.div mode y).IsAtLeast (k - 1) := by
  rw [Binary64.div, h.isNegative, hy.isNegative, hf, hy.isZero]
  simp only [bne_self_eq_false, Bool.and_true, Bool.not_false, if_true]
  rcases h.isFinite_or with hx | ⟨hx, hinf⟩
  · have hpos : 0 < y.magnitude := (zpow_pos two_pos j).trans_le hy.le
    have hle : 2 ^ (k - 1) ≤ x.magnitude / y.magnitude := by
      rw [le_div_iff₀ hpos]
      calc 2 ^ (k - 1) * y.magnitude ≤ 2 ^ (k - 1) * 2 := mul_le_mul_of_nonneg_left hlt.le (zpow_pos two_pos _).le
        _ = 2 ^ k := by rw [← zpow_add_one₀ two_ne_zero, sub_add_cancel]
        _ ≤ x.magnitude := h.le
    rw [if_pos hx]
    exact (divFinite_isRounding mode false hy.rank_ne_zero).isAtLeast hlo (by omega) hle
  · rw [hx, h.isNaN, hy.isNaN, hinf, isInfinite_of_isFinite hf]
    exact infinity_isAtLeast (by omega)

end RandomX.Binary64
