import RandomX.Proofs.Binary64.Value

/-!
# Rounding

A rounded result is a neighbour of the exact one: whatever direction is taken, no finite double lies strictly between
the two. It has the sign that was asked for and is never a NaN. But for rounding to nearest, the direction says on which
side of the exact one it lies. Values that no finite double tells apart have the same roundings.
-/
namespace RandomX.Binary64

variable {x y : Binary64} {mode : Rounding} {s : Bool} {n : UInt64} {q : ℤ} {v w : ℚ}

/-- No finite double lies strictly between the magnitude of `x` and `v`. -/
structure IsNeighbour (s : Bool) (v : ℚ) (x : Binary64) : Prop where
  isNegative : x.isNegative = s
  isNaN : x.isNaN = false
  le : ∀ y : Binary64, y.isFinite = true → v ≤ y.magnitude → x.magnitude ≤ y.magnitude
  ge : ∀ y : Binary64, y.isFinite = true → y.magnitude ≤ v → y.magnitude ≤ x.magnitude

/-- The neighbour lies on the side of `v` that the direction asks for. -/
structure IsRounding (mode : Rounding) (s : Bool) (v : ℚ) (x : Binary64) : Prop extends IsNeighbour s v x where
  toward : mode.overflows s = false → x.isFinite = true ∧ x.magnitude ≤ v
  away : mode ≠ .nearest → mode.overflows s = true → x.isFinite = true → v ≤ x.magnitude

/-! ## Patterns -/

theorem toNat_pattern {m : UInt64} {k : Nat} (hk : k ≤ 2045) (hm : m.toNat ≤ 2 ^ 53) :
    (pattern m (k - 1074)).toNat = k * 2 ^ 52 + m.toNat := by
  have hexp : ((k : ℤ) - 1074 - leastExponent).toNat = k := by
    rw [leastExponent]
    omega
  have hshift : (k.toUInt64 <<< 52).toNat = k * 2 ^ 52 := by
    have hnat : k.toUInt64.toNat = k := UInt64.toNat_ofNat_of_lt' (show k < 2 ^ 64 by omega)
    rw [toNat_shiftLeft_of_lt (n := 52) rfl (by decide) (by omega), hnat]
  rw [pattern, hexp, UInt64.toNat_add, hshift]
  exact Nat.mod_eq_of_lt (by omega)

theorem units_pattern {k m : Nat} (hm : m ≤ 2 ^ 53) (h : 2 ^ 52 ≤ m ∨ k = 0) : units (k * 2 ^ 52 + m) = m * 2 ^ k := by
  rw [units]
  by_cases hlt : k * 2 ^ 52 + m < 2 ^ 52
  · rw [if_pos hlt, show k = 0 by omega]
    simp
  · rw [if_neg hlt]
    by_cases hcarry : m = 2 ^ 53
    · rw [show (k * 2 ^ 52 + m) % 2 ^ 52 = 0 by omega, show (k * 2 ^ 52 + m) / 2 ^ 52 - 1 = k + 1 by omega, hcarry, pow_succ]
      ring
    · rw [show (k * 2 ^ 52 + m) % 2 ^ 52 + 2 ^ 52 = m by omega, show (k * 2 ^ 52 + m) / 2 ^ 52 - 1 = k by omega]

/-- The double of a significand at an exponent has their value. The greatest significand carries into the exponent. -/
theorem magnitude_pattern {m : UInt64} {last : ℤ} (hlo : -1074 ≤ last) (hhi : last ≤ 971) (hm : m.toNat ≤ 2 ^ 53)
    (h : 2 ^ 52 ≤ m.toNat ∨ last = -1074) (s : Bool) :
    (ofParts s (pattern m last)).magnitude = m.toNat * 2 ^ last ∧ (ofParts s (pattern m last)).isNegative = s ∧
      (ofParts s (pattern m last)).isNaN = false := by
  obtain ⟨k, rfl⟩ : ∃ k : ℕ, last = k - 1074 := ⟨(last + 1074).toNat, by omega⟩
  have hnat := toNat_pattern (by omega : k ≤ 2045) hm
  have hlt : (pattern m (k - 1074)).toNat < 2 ^ 63 := by omega
  refine ⟨?_, isNegative_ofParts hlt s, ?_⟩
  · rw [magnitude_eq, rank_ofParts hlt, hnat, units_pattern hm (h.imp_right fun h => by omega), sub_eq_neg_add,
      two_zpow_add, ← mul_assoc, Nat.cast_mul]
  · rw [← Bool.not_eq_true, isNaN_iff, rank_ofParts hlt, hnat]
    omega

/-! ## Neighbours -/

/-- No double lies strictly between a significand of full length and the next one. -/
theorem magnitude_le_of_lt_succ {m : Nat} {last : ℤ} (h : 2 ^ 52 ≤ m ∨ last = -1074)
    (hlt : y.magnitude < (m + 1 : ℕ) * 2 ^ last) : y.magnitude ≤ m * 2 ^ last := by
  have hpos : (0 : ℚ) < 2 ^ last := zpow_pos two_pos _
  have hexp := y.exponent_eq
  by_cases hle : last ≤ y.exponent
  · obtain ⟨k, hk⟩ : ∃ k : ℕ, y.exponent = last + k := ⟨(y.exponent - last).toNat, by omega⟩
    have hmag : y.magnitude = (y.significand.toNat * 2 ^ k : ℕ) * 2 ^ last := by
      rw [magnitude, hk, two_zpow_add]
      push_cast
      ring
    rw [hmag] at hlt ⊢
    rw [mul_lt_mul_iff_left₀ hpos, Nat.cast_lt] at hlt
    exact mul_le_mul_of_nonneg_right (Nat.cast_le.mpr (Nat.le_of_lt_succ hlt)) hpos.le
  · have hm : 2 ^ 52 ≤ m := h.resolve_right (by omega)
    calc y.magnitude ≤ 2 ^ (y.exponent + 53) := y.magnitude_lt_two_pow.le
      _ ≤ 2 ^ (last + (52 : ℕ)) := zpow_le_zpow_right₀ one_le_two (by push_cast; omega)
      _ = (2 ^ 52 : ℕ) * 2 ^ last := two_zpow_add _ _
      _ ≤ m * 2 ^ last := mul_le_mul_of_nonneg_right (Nat.cast_le.mpr hm) hpos.le

/-- The first rank of a binade is that of a power of two. -/
theorem units_binade (k : Nat) :
    (units (k * 2 ^ 52 + 2 ^ 52) : ℚ) * 2 ^ (-1074 : ℤ) = 2 ^ (-1074 + (52 + k : ℕ) : ℤ) := by
  rw [units_pattern (by decide) (.inl le_rfl), ← pow_add, two_zpow_add]

theorem isFinite_iff_magnitude_lt : x.isFinite = true ↔ x.magnitude < 2 ^ (1024 : ℤ) := by
  have hrank : (infinity false).rank = 2046 * 2 ^ 52 + 2 ^ 52 := by decide
  have hpow : (infinity false).magnitude = 2 ^ (1024 : ℤ) := by
    rw [magnitude_eq, hrank]
    exact units_binade 2046
  rw [← hpow, ← not_le, magnitude_le_iff, hrank, isFinite_iff, toNat_exponentField]
  omega

/-- What is kept of a value, or the next significand, is its rounding, if the direction allows it. -/
theorem IsRounding.of_between {m : Nat} {last : ℤ} (h : 2 ^ 52 ≤ m ∨ last = -1074) (hlt : m < 2 ^ 53) (hlast : last ≤ 971)
    (hs : x.isNegative = s) (hn : x.isNaN = false) (hlo : m * 2 ^ last ≤ v) (hhi : v < (m + 1 : ℕ) * 2 ^ last)
    (hx : x.magnitude = m * 2 ^ last ∧ (mode ≠ .nearest → mode.overflows s = true → v ≤ m * 2 ^ last) ∨
      x.magnitude = (m + 1 : ℕ) * 2 ^ last ∧ m * 2 ^ last < v ∧ mode.overflows s = true) : IsRounding mode s v x where
  isNegative := hs
  isNaN := hn
  le y _ hy := by
    rcases hx with ⟨hx, _⟩ | ⟨hx, hv, _⟩
    · rw [hx]
      exact hlo.trans hy
    · rw [hx]
      by_contra hlt
      exact absurd (magnitude_le_of_lt_succ h (not_le.mp hlt)) (not_le.mpr (hv.trans_le hy))
  ge y _ hy := by
    have hle := magnitude_le_of_lt_succ h (hy.trans_lt hhi)
    rcases hx with ⟨hx, _⟩ | ⟨hx, _⟩
    · rwa [hx]
    · rw [hx]
      exact hy.trans hhi.le
  toward hno := by
    rcases hx with ⟨hx, _⟩ | ⟨_, _, hyes⟩
    · refine ⟨isFinite_iff_magnitude_lt.mpr ?_, hx ▸ hlo⟩
      calc x.magnitude = m * 2 ^ last := hx
        _ < (2 ^ 53 : ℕ) * 2 ^ last := mul_lt_mul_of_pos_right (Nat.cast_lt.mpr hlt) (zpow_pos two_pos _)
        _ = 2 ^ (last + (53 : ℕ)) := (two_zpow_add 53 last).symm
        _ ≤ 2 ^ (1024 : ℤ) := zpow_le_zpow_right₀ one_le_two (by omega)
    · rw [hno] at hyes
      cases hyes
  away hmode hover _ := by
    rcases hx with ⟨hx, hexact⟩ | ⟨hx, _⟩
    · exact (hexact hmode hover).trans_eq hx.symm
    · exact hhi.le.trans_eq hx.symm

/-! ## Parts of a rounding -/

/-- A magnitude goes up only if something is dropped and the direction is not toward zero. -/
theorem rest_ne_zero_of_awayFromZero {kept rest half : UInt64} (hhalf : half ≠ 0)
    (h : mode.awayFromZero s kept rest half = true) : rest ≠ 0 ∧ mode.overflows s = true := by
  constructor
  · rintro rfl
    cases mode <;> simp [Rounding.awayFromZero, hhalf] at h
  · cases mode <;> simp_all [Rounding.awayFromZero, Rounding.overflows]

theorem rest_eq_zero_of_not_awayFromZero {kept rest half : UInt64} (hmode : mode ≠ .nearest)
    (hover : mode.overflows s = true) (h : ¬ mode.awayFromZero s kept rest half = true) : rest = 0 := by
  cases mode <;> simp_all [Rounding.awayFromZero, Rounding.overflows]

/-- A shift by more than a word drops what the widest shift drops. -/
theorem div_mod_min (shift : Nat) (hn : n.toNat < 2 ^ 63) : n.toNat / 2 ^ min shift 63 = n.toNat / 2 ^ shift ∧
    n.toNat % 2 ^ min shift 63 = n.toNat % 2 ^ shift := by
  rcases Nat.le_total shift 63 with hle | hge
  · rw [Nat.min_eq_left hle]
    exact ⟨rfl, rfl⟩
  · have hlt := hn.trans_le (Nat.pow_le_pow_right two_pos hge)
    rw [Nat.min_eq_right hge, Nat.div_eq_of_lt hn, Nat.div_eq_of_lt hlt, Nat.mod_eq_of_lt hn, Nat.mod_eq_of_lt hlt]
    exact ⟨rfl, rfl⟩

theorem toNat_kept_rest {t : Nat} (n : UInt64) (ht : t < 64) : (n >>> t.toUInt64).toNat = n.toNat / 2 ^ t ∧
    (n - ((n >>> t.toUInt64) <<< t.toUInt64)).toNat = n.toNat % 2 ^ t := by
  have hs : t.toUInt64.toNat = t := UInt64.toNat_ofNat_of_lt' (show t < 2 ^ 64 by omega)
  have hkept : (n >>> t.toUInt64).toNat = n.toNat / 2 ^ t := toNat_shiftRight_of_lt hs ht
  have hle := Nat.div_mul_le_self n.toNat (2 ^ t)
  have hback : ((n >>> t.toUInt64) <<< t.toUInt64).toNat = n.toNat / 2 ^ t * 2 ^ t := by
    have hlt := n.toNat_lt
    rw [toNat_shiftLeft_of_lt hs ht (by rw [hkept]; omega), hkept]
  have hmod := Nat.div_add_mod' n.toNat (2 ^ t)
  refine ⟨hkept, ?_⟩
  rw [UInt64.toNat_sub_of_le _ _ (by rwa [UInt64.le_iff_toNat_le, hback]), hback]
  omega

theorem half_ne_zero {t : Nat} (h0 : t ≠ 0) (ht : t < 64) : (1 : UInt64) <<< (t.toUInt64 - 1) ≠ 0 := by
  have hs : t.toUInt64.toNat = t := UInt64.toNat_ofNat_of_lt' (show t < 2 ^ 64 by omega)
  have hsub : (t.toUInt64 - 1).toNat = t - 1 := by
    rw [UInt64.toNat_sub_of_le _ _ (by rw [UInt64.le_iff_toNat_le, hs]; simp; omega), hs]
    rfl
  rw [ne_eq, ← UInt64.toNat_inj, toNat_one_shiftLeft (by omega)]
  exact (Nat.two_pow_pos _).ne'

/-- The quotient is kept or increased by one, as the direction and what was dropped decide. -/
theorem shiftRounded_spec (mode : Rounding) (s : Bool) (hn : n.toNat < 2 ^ 62) (shift : Nat) :
    (shiftRounded mode s n shift).toNat = n.toNat / 2 ^ shift ∧
        (mode ≠ .nearest → mode.overflows s = true → n.toNat % 2 ^ shift = 0) ∨
      (shiftRounded mode s n shift).toNat = n.toNat / 2 ^ shift + 1 ∧ n.toNat % 2 ^ shift ≠ 0 ∧
        mode.overflows s = true := by
  by_cases h0 : shift = 0
  · rw [shiftRounded, if_pos h0, h0]
    simp [Nat.mod_one]
  · obtain ⟨hkept, hrest⟩ := toNat_kept_rest n (t := min shift 63) (by omega)
    have hhalf := half_ne_zero (t := min shift 63) (by omega) (by omega)
    obtain ⟨hdiv, hmod⟩ := div_mod_min shift (hn.trans (by decide))
    rw [hdiv] at hkept
    rw [hmod] at hrest
    rw [shiftRounded, if_neg h0]
    simp only
    split
    · rename_i haway
      obtain ⟨hne, hover⟩ := rest_ne_zero_of_awayFromZero hhalf haway
      refine .inr ⟨?_, ?_, hover⟩
      · have hle := Nat.div_le_self n.toNat (2 ^ shift)
        rw [UInt64.toNat_add, hkept]
        exact Nat.mod_eq_of_lt (by rw [UInt64.toNat_one]; omega)
      · intro hz
        apply hne
        rw [← UInt64.toNat_inj, hrest, hz]
        rfl
    · rename_i haway
      refine .inl ⟨hkept, fun hmode hover => ?_⟩
      rw [← hrest, rest_eq_zero_of_not_awayFromZero hmode hover haway]
      rfl

/-! ## Cases -/

/-- A magnitude that fits keeps all its bits. -/
theorem toNat_shiftLeft_of_fits {d : Nat} (h0 : n.toNat ≠ 0) (hd : n.toNat.log2 + d ≤ 52) :
    (n <<< d.toUInt64).toNat = n.toNat * 2 ^ d ∧ n.toNat * 2 ^ d < 2 ^ 53 ∧
      (n.toNat.log2 + d = 52 → 2 ^ 52 ≤ n.toNat * 2 ^ d) := by
  have hlt : n.toNat * 2 ^ d < 2 ^ 53 := by
    calc n.toNat * 2 ^ d < 2 ^ (n.toNat.log2 + 1) * 2 ^ d := Nat.mul_lt_mul_of_pos_right Nat.lt_log2_self (Nat.two_pow_pos d)
      _ = 2 ^ (n.toNat.log2 + 1 + d) := (Nat.pow_add _ _ _).symm
      _ ≤ 2 ^ 53 := Nat.pow_le_pow_right two_pos (by omega)
  refine ⟨?_, hlt, fun h => ?_⟩
  · exact toNat_shiftLeft_of_lt (UInt64.toNat_ofNat_of_lt' (show d < 2 ^ 64 by omega)) (by omega) (by omega)
  · rw [← h, Nat.pow_add]
    exact Nat.mul_le_mul_right _ (Nat.log2_self_le h0)

theorem div_two_pow_lt {m shift : Nat} (h0 : m ≠ 0) (h : m.log2 ≤ 52 + shift) :
    m / 2 ^ shift < 2 ^ 53 ∧ (m.log2 = 52 + shift → 2 ^ 52 ≤ m / 2 ^ shift) := by
  constructor
  · rw [Nat.div_lt_iff_lt_mul (Nat.two_pow_pos _), ← Nat.pow_add]
    exact Nat.lt_log2_self.trans_le (Nat.pow_le_pow_right two_pos (by omega))
  · intro heq
    rw [Nat.le_div_iff_mul_le (Nat.two_pow_pos _), ← Nat.pow_add, ← heq]
    exact Nat.log2_self_le h0

theorem shifted_isRounding {shift : Nat} (hn : n.toNat < 2 ^ 62) (h0 : n.toNat ≠ 0) (hlo : -1074 ≤ q + shift)
    (hhi : q + shift ≤ 971) (hlog : n.toNat.log2 ≤ 52 + shift) (hlast : n.toNat.log2 = 52 + shift ∨ q + shift = -1074) :
    IsRounding mode s (n.toNat * 2 ^ q) (ofParts s (pattern (shiftRounded mode s n shift) (q + shift))) := by
  have hpos : (0 : ℚ) < 2 ^ q := zpow_pos two_pos _
  obtain ⟨hlt, hfull⟩ := div_two_pow_lt h0 hlog
  have hnorm : 2 ^ 52 ≤ n.toNat / 2 ^ shift ∨ q + shift = -1074 := hlast.imp_left hfull
  have hmod := Nat.div_add_mod' n.toNat (2 ^ shift)
  have hrest := Nat.mod_lt n.toNat (Nat.two_pow_pos shift)
  have hval (k : Nat) : (k : ℚ) * 2 ^ (q + shift) = (k * 2 ^ shift : ℕ) * 2 ^ q := by
    rw [two_zpow_add, ← mul_assoc, Nat.cast_mul]
  have hspec := shiftRounded_spec mode s hn shift
  obtain ⟨hmag, hs, hnan⟩ := magnitude_pattern (m := shiftRounded mode s n shift) hlo hhi (by omega)
    (hnorm.imp_left fun h => by omega) s
  refine .of_between (m := n.toNat / 2 ^ shift) hnorm hlt hhi hs hnan ?_ ?_ ?_
  · rw [hval, mul_le_mul_iff_left₀ hpos, Nat.cast_le]
    exact Nat.div_mul_le_self _ _
  · rw [hval, mul_lt_mul_iff_left₀ hpos, Nat.cast_lt, Nat.succ_mul]
    omega
  · rw [hmag]
    rcases hspec with ⟨h, hzero⟩ | ⟨h, hne, hover⟩
    · refine .inl ⟨by rw [h], fun hmode hover => ?_⟩
      rw [hval, mul_le_mul_iff_left₀ hpos, Nat.cast_le]
      have := hzero hmode hover
      omega
    · refine .inr ⟨by rw [h], ?_, hover⟩
      rw [hval, mul_lt_mul_iff_left₀ hpos, Nat.cast_lt]
      omega

theorem exact_isRounding {d : Nat} {last : ℤ} (h0 : n.toNat ≠ 0) (hlo : -1074 ≤ last) (hhi : last ≤ 971)
    (hlog : n.toNat.log2 + d ≤ 52) (hlast : n.toNat.log2 + d = 52 ∨ last = -1074) :
    IsRounding mode s (n.toNat * 2 ^ (last + d)) (ofParts s (pattern (n <<< d.toUInt64) last)) := by
  obtain ⟨hnat, hlt, hfull⟩ := toNat_shiftLeft_of_fits h0 hlog
  have hnorm : 2 ^ 52 ≤ n.toNat * 2 ^ d ∨ last = -1074 := hlast.imp_left hfull
  obtain ⟨hmag, hs, hnan⟩ := magnitude_pattern (m := n <<< d.toUInt64) hlo hhi (by omega) (by rwa [hnat]) s
  have hval : (n.toNat : ℚ) * 2 ^ (last + d) = (n.toNat * 2 ^ d : ℕ) * 2 ^ last := by
    rw [two_zpow_add, ← mul_assoc, Nat.cast_mul]
  refine .of_between hnorm hlt hhi hs hnan hval.ge ?_ (.inl ⟨by rw [hmag, hnat], fun _ _ => hval.le⟩)
  rw [hval, mul_lt_mul_iff_left₀ (zpow_pos two_pos _), Nat.cast_lt]
  exact Nat.lt_succ_self _

/-- Beyond the greatest finite number only that number and infinity are neighbours. -/
theorem overflow_isRounding (hv : 2 ^ (1024 : ℤ) ≤ v) : IsRounding mode s v (overflow mode s) := by
  obtain ⟨m, hm, hge, hle, hfinite⟩ : ∃ m : UInt64, overflow mode s = ofParts s m ∧ 2047 * 2 ^ 52 - 1 ≤ m.toNat ∧
      m.toNat ≤ 2047 * 2 ^ 52 ∧ (m.toNat < 2047 * 2 ^ 52 ↔ mode.overflows s = false) := by
    rw [overflow]
    split
    · rename_i hover
      rw [hover]
      exact ⟨infinityBits, rfl, by decide, by decide, by decide⟩
    · rename_i hover
      rw [Bool.eq_false_iff.mpr hover]
      exact ⟨infinityBits - 1, rfl, by decide, by decide, by decide⟩
  have hlt : m.toNat < 2 ^ 63 := by omega
  have hiff : (ofParts s m).isFinite = true ↔ mode.overflows s = false := by
    rw [isFinite_iff, toNat_exponentField, rank_ofParts hlt, ← hfinite]
    omega
  rw [hm]
  refine ⟨⟨isNegative_ofParts hlt s, ?_, ?_, ?_⟩, ?_, ?_⟩
  · rw [← Bool.not_eq_true, isNaN_iff, rank_ofParts hlt]
    omega
  · intro y hy hvy
    exact absurd (hv.trans hvy) (not_le.mpr (isFinite_iff_magnitude_lt.mp hy))
  · intro y hy _
    rw [isFinite_iff, toNat_exponentField] at hy
    rw [magnitude_le_iff, rank_ofParts hlt]
    omega
  · intro hno
    have hx := hiff.mpr hno
    exact ⟨hx, (isFinite_iff_magnitude_lt.mp hx).le.trans hv⟩
  · intro _ hover hx
    rw [hiff.mp hx] at hover
    cases hover

theorem zero_isRounding : IsRounding mode s 0 (zero s) := by
  obtain ⟨hmag, hs, hnan⟩ := magnitude_pattern (m := 0) (le_refl (-1074)) (by decide) (by decide) (.inr rfl) s
  have hzero : (zero s).magnitude = 0 := by
    refine hmag.trans ?_
    rw [UInt64.toNat_zero, Nat.cast_zero, zero_mul]
  refine ⟨⟨hs, hnan, fun y _ _ => hzero ▸ y.magnitude_nonneg, fun y _ hy => hzero ▸ hy⟩, fun _ => ⟨?_, hzero.le⟩,
    fun _ _ _ => hzero.ge⟩
  rw [isFinite_iff_magnitude_lt, hzero]
  exact zpow_pos two_pos _

/-! ## Results -/

/-- The result is a neighbour of the exact value, in the direction that was asked for. -/
theorem round_isRounding (mode : Rounding) (s : Bool) (q : ℤ) (hn : n.toNat < 2 ^ 62) :
    IsRounding mode s (n.toNat * 2 ^ q) (round mode s n q) := by
  by_cases h0 : n = 0
  · rw [round, if_pos h0, h0, UInt64.toNat_zero, Nat.cast_zero, zero_mul]
    exact zero_isRounding
  · have hne : n.toNat ≠ 0 := fun h => h0 (UInt64.toNat_inj.mp h)
    obtain ⟨last, hlast⟩ : ∃ last, last = lastExponent n q := ⟨_, rfl⟩
    have hmax : last = max (q + n.toNat.log2 - 52) (-1074) := hlast
    rw [round, if_neg h0, ← hlast]
    simp only
    split
    · rename_i hover
      rw [greatestExponent] at hover
      apply overflow_isRounding
      calc (2 : ℚ) ^ (1024 : ℤ) ≤ 2 ^ (q + n.toNat.log2) := zpow_le_zpow_right₀ one_le_two (by omega)
        _ = (2 ^ n.toNat.log2 : ℕ) * 2 ^ q := two_zpow_add _ _
        _ ≤ n.toNat * 2 ^ q := mul_le_mul_of_nonneg_right (Nat.cast_le.mpr (Nat.log2_self_le hne)) (zpow_pos two_pos _).le
    · rename_i hover
      rw [greatestExponent, not_lt] at hover
      split
      · obtain ⟨d, rfl⟩ : ∃ d : ℕ, q = last + d := ⟨(q - last).toNat, by omega⟩
        rw [add_sub_cancel_left, Int.toNat_natCast]
        exact exact_isRounding hne (by omega) hover (by omega) (by omega)
      · obtain ⟨shift, rfl⟩ : ∃ shift : ℕ, last = q + shift := ⟨(last - q).toNat, by omega⟩
        rw [add_sub_cancel_left, Int.toNat_natCast]
        exact shifted_isRounding hn hne (by omega) hover (by omega) (by omega)

/-! ## Values that round alike -/

/-- No finite double tells the two values apart. -/
def SameCut (v w : ℚ) : Prop :=
  ∀ y : Binary64, y.isFinite = true → (y.magnitude ≤ v ↔ y.magnitude ≤ w) ∧ (v ≤ y.magnitude ↔ w ≤ y.magnitude)

theorem IsRounding.of_sameCut (h : IsRounding mode s w x) (hcut : SameCut v w) : IsRounding mode s v x where
  isNegative := h.isNegative
  isNaN := h.isNaN
  le y hy hle := h.le y hy ((hcut y hy).2.mp hle)
  ge y hy hle := h.ge y hy ((hcut y hy).1.mp hle)
  toward hno := by
    obtain ⟨hx, hle⟩ := h.toward hno
    exact ⟨hx, (hcut x hx).1.mpr hle⟩
  away hmode hover hx := (hcut x hx).2.mpr (h.away hmode hover hx)

/-- All that lies strictly between two neighbouring significands rounds alike. -/
theorem sameCut_of_between {m : ℕ} (hm : 2 ^ 52 ≤ m) (hv : m * 2 ^ q < v ∧ v < (m + 1 : ℕ) * 2 ^ q)
    (hw : m * 2 ^ q < w ∧ w < (m + 1 : ℕ) * 2 ^ q) : SameCut v w := by
  intro y _
  by_cases hlt : y.magnitude < (m + 1 : ℕ) * 2 ^ q
  · have hle := magnitude_le_of_lt_succ (.inl hm) hlt
    exact ⟨iff_of_true (hle.trans hv.1.le) (hle.trans hw.1.le),
      iff_of_false (not_le.mpr (hle.trans_lt hv.1)) (not_le.mpr (hle.trans_lt hw.1))⟩
  · have hge := not_lt.mp hlt
    exact ⟨iff_of_false (not_le.mpr (hv.2.trans_le hge)) (not_le.mpr (hw.2.trans_le hge)),
      iff_of_true (hv.2.le.trans hge) (hw.2.le.trans hge)⟩

/-! ## Signed values -/

/-- The rounding of a value with its sign. That of zero may have either one. -/
def IsSignedRounding (mode : Rounding) (v : ℚ) (x : Binary64) : Prop :=
  ∃ s w, v = signed s w ∧ 0 ≤ w ∧ IsRounding mode s w x

theorem IsSignedRounding.le (h : IsSignedRounding mode v x) (hy : y.isFinite = true) (hv : |v| ≤ y.magnitude) :
    x.magnitude ≤ y.magnitude := by
  obtain ⟨s, w, rfl, hw, hround⟩ := h
  exact hround.le y hy (abs_signed hw ▸ hv)

theorem IsSignedRounding.ge (h : IsSignedRounding mode v x) (hy : y.isFinite = true) (hv : y.magnitude ≤ |v|) :
    y.magnitude ≤ x.magnitude := by
  obtain ⟨s, w, rfl, hw, hround⟩ := h
  exact hround.ge y hy (abs_signed hw ▸ hv)

end RandomX.Binary64
