import RandomX.Proofs.Binary64.Exact

/-!
# Roots

The digits of a root give all its bits that matter, and a sticky bit tells whether its square is the operand. In the
other directions the root that was rounded to nearest is corrected. As it is a neighbour of the root, one place is
enough, and comparing its exact square with the operand tells on which side it lies.
-/
namespace RandomX.Binary64

variable {x y : Binary64} {mode : Rounding} {v w : ℚ} {k : ℤ}

/-! ## Digits -/

theorem toNat_shiftLeft_one_or_one {w : UInt64} (hw : w.toNat < 2 ^ 63) :
    ((w <<< 1) ||| 1).toNat = 2 * w.toNat + 1 := by
  rw [UInt64.toNat_or, toNat_shiftLeft_of_lt (n := 1) rfl (by decide) (by omega), Nat.mul_comm]
  exact (Nat.two_pow_add_eq_or_of_lt (i := 1) (by decide : 1 < 2 ^ 1) w.toNat).symm

theorem toNat_shiftLeft_two_or {w b : UInt64} (hw : w.toNat < 2 ^ 62) (hb : b.toNat < 2 ^ 2) :
    ((w <<< 2) ||| b).toNat = 4 * w.toNat + b.toNat := by
  rw [UInt64.toNat_or, toNat_shiftLeft_of_lt (n := 2) rfl (by decide) (by omega), Nat.mul_comm]
  exact (Nat.two_pow_add_eq_or_of_lt (i := 2) hb w.toNat).symm

/-- The bits that a root of `n + 1` more bits uses are the first two and those that one of `n` bits uses after them. -/
theorem bits_succ (bits : UInt64) (n : ℕ) : bits.toNat * 4 ^ (n + 1) / 2 ^ 64 =
    bits.toNat / 2 ^ 62 * 4 ^ n + (bits <<< 2).toNat * 4 ^ n / 2 ^ 64 := by
  have hbits := bits.toNat_lt
  have hlow : (bits <<< 2).toNat = bits.toNat * 2 ^ 2 % 2 ^ 64 := by
    rw [← Nat.shiftLeft_eq]
    exact UInt64.toNat_shiftLeft _ _
  have hsplit : bits.toNat * 4 = (bits <<< 2).toNat + 2 ^ 64 * (bits.toNat / 2 ^ 62) := by omega
  rw [pow_succ, Nat.mul_comm (4 ^ n), ← Nat.mul_assoc, hsplit, Nat.add_mul, Nat.mul_assoc,
    Nat.add_mul_div_left _ _ (Nat.two_pow_pos 64), Nat.add_comm]

/-- Every step adds a bit to the root, and what is left stays below the next square. -/
theorem extendRoot_spec (n : ℕ) (bits root rest : UInt64) (hrest : rest.toNat ≤ 2 * root.toNat)
    (h : (root.toNat + 1) * 2 ^ n ≤ 2 ^ 60) : ∃ r t : UInt64, extendRoot n bits root rest = withSticky r (t == 0) ∧
      r.toNat < 2 ^ 60 ∧ t.toNat ≤ 2 * r.toNat ∧
      r.toNat * r.toNat + t.toNat = (root.toNat * root.toNat + rest.toNat) * 4 ^ n + bits.toNat * 4 ^ n / 2 ^ 64 := by
  induction n generalizing bits root rest with
  | zero =>
      refine ⟨root, rest, rfl, by omega, hrest, ?_⟩
      rw [pow_zero, Nat.mul_one, Nat.mul_one, Nat.div_eq_of_lt bits.toNat_lt, Nat.add_zero]
  | succ n ih =>
      have hroot : root.toNat + 1 ≤ 2 ^ 60 := (Nat.le_mul_of_pos_right _ (Nat.two_pow_pos _)).trans h
      have hlen : (root.toNat + 1) * 2 ^ (n + 1) = (2 * root.toNat + 1 + 1) * 2 ^ n := by ring
      have htop : (bits >>> 62).toNat = bits.toNat / 2 ^ 62 := toNat_shiftRight_of_lt rfl (by decide)
      have htop' : bits.toNat / 2 ^ 62 < 2 ^ 2 := Nat.div_lt_of_lt_mul bits.toNat_lt
      have hrest' : ((rest <<< 2) ||| (bits >>> 62)).toNat = 4 * rest.toNat + bits.toNat / 2 ^ 62 := by
        rw [toNat_shiftLeft_two_or (by omega) (by rwa [htop]), htop]
      have htrial : ((root <<< 2) ||| 1).toNat = 4 * root.toNat + 1 := toNat_shiftLeft_two_or (by omega) (by decide)
      rw [hlen] at h
      rw [extendRoot, bits_succ]
      generalize (rest <<< 2) ||| (bits >>> 62) = next at hrest' ⊢
      generalize (root <<< 2) ||| 1 = trial at htrial ⊢
      simp only [UInt64.le_iff_toNat_le]
      split
      · rename_i hle
        have hodd := toNat_shiftLeft_one_or_one (w := root) (by omega)
        have hsub := UInt64.toNat_sub_of_le next trial (UInt64.le_iff_toNat_le.mpr hle)
        obtain ⟨r, t, hr, hlt, ht, heq⟩ :=
          ih (bits <<< 2) ((root <<< 1) ||| 1) (next - trial) (by omega) (by rwa [hodd])
        refine ⟨r, t, hr, hlt, ht, ?_⟩
        -- The trial is what a set bit adds to four times the square.
        have hsquare : (2 * root.toNat + 1) * (2 * root.toNat + 1) + (next.toNat - trial.toNat) =
            4 * (root.toNat * root.toNat + rest.toNat) + bits.toNat / 2 ^ 62 := by
          have hexpand : (2 * root.toNat + 1) * (2 * root.toNat + 1) =
              4 * (root.toNat * root.toNat) + 4 * root.toNat + 1 := by ring
          omega
        rw [heq, hsub, hodd, hsquare]
        ring
      · rename_i hgt
        have hdouble : (root <<< 1).toNat = 2 * root.toNat := by
          rw [toNat_shiftLeft_of_lt (n := 1) rfl (by decide) (by omega), Nat.mul_comm, Nat.pow_one]
        obtain ⟨r, t, hr, hlt, ht, heq⟩ := ih (bits <<< 2) (root <<< 1) next (by omega)
          (by rw [hdouble]; exact (Nat.mul_le_mul_right _ (Nat.le_succ _)).trans h)
        refine ⟨r, t, hr, hlt, ht, ?_⟩
        rw [heq, hrest', hdouble]
        ring

/-! ## Values of roots -/

/-- No finite double tells `v` from the root of `w`. -/
def SameRoot (v w : ℚ) : Prop :=
  ∀ y : Binary64, y.isFinite = true → (y.magnitude ≤ v ↔ y.magnitude ^ 2 ≤ w) ∧ (v ≤ y.magnitude ↔ w ≤ y.magnitude ^ 2)

theorem sameRoot_sq (hv : 0 ≤ v) : SameRoot v (v ^ 2) := by
  intro y _
  rw [sq_le_sq₀ y.magnitude_nonneg hv, sq_le_sq₀ hv y.magnitude_nonneg]
  exact ⟨Iff.rfl, Iff.rfl⟩

/-- All that lies strictly between two neighbouring significands has its square between theirs. -/
theorem sameRoot_of_between {m : ℕ} {q : ℤ} (hm : 2 ^ 52 ≤ m) (hv : m * 2 ^ q < v ∧ v < (m + 1 : ℕ) * 2 ^ q)
    (hw : (m * 2 ^ q) ^ 2 < w ∧ w < ((m + 1 : ℕ) * 2 ^ q) ^ 2) : SameRoot v w := by
  intro y _
  have hy := y.magnitude_nonneg
  by_cases hlt : y.magnitude < (m + 1 : ℕ) * 2 ^ q
  · have hle := magnitude_le_of_lt_succ (.inl hm) hlt
    have hsq : y.magnitude ^ 2 ≤ (m * 2 ^ q) ^ 2 := pow_le_pow_left₀ hy hle 2
    exact ⟨iff_of_true (hle.trans hv.1.le) (hsq.trans hw.1.le),
      iff_of_false (not_le.mpr (hle.trans_lt hv.1)) (not_le.mpr (hsq.trans_lt hw.1))⟩
  · have hge := not_lt.mp hlt
    have hsq : ((m + 1 : ℕ) * 2 ^ q) ^ 2 ≤ y.magnitude ^ 2 := pow_le_pow_left₀ (by positivity) hge 2
    exact ⟨iff_of_false (not_le.mpr (hv.2.trans_le hge)) (not_le.mpr (hw.2.trans_le hsq)),
      iff_of_true (hv.2.le.trans hge) (hw.2.le.trans hsq)⟩

/-- The digits of a root and the sticky bit stand for the root. -/
theorem sameRoot_digits {r t : ℕ} {q : ℤ} (hr : 2 ^ 52 ≤ r) (ht : t ≤ 2 * r) :
    SameRoot ((2 * r + if t = 0 then 0 else 1 : ℕ) * 2 ^ q) ((r * r + t : ℕ) * (2 ^ (q + 1)) ^ 2) := by
  have hpos : (0 : ℚ) < 2 ^ q := zpow_pos two_pos q
  have hpow : (2 : ℚ) ^ (q + 1) = 2 * 2 ^ q := by
    rw [zpow_add_one₀ two_ne_zero, mul_comm]
  by_cases h0 : t = 0
  · have hsq : ((r * r + t : ℕ) : ℚ) * (2 ^ (q + 1)) ^ 2 = ((2 * r + if t = 0 then 0 else 1 : ℕ) * 2 ^ q) ^ 2 := by
      rw [hpow, if_pos h0, h0]
      push_cast
      ring
    rw [hsq]
    exact sameRoot_sq (by positivity)
  · have hlow (k : ℕ) : (k : ℚ) * 2 ^ (q + 1) = (2 * k : ℕ) * 2 ^ q := by
      rw [hpow]
      push_cast
      ring
    have hsq (k : ℕ) : ((k : ℚ) * 2 ^ (q + 1)) ^ 2 = (k * k : ℕ) * (2 ^ (q + 1)) ^ 2 := by
      push_cast
      ring
    have hpos' : (0 : ℚ) < (2 ^ (q + 1)) ^ 2 := by positivity
    have hexpand : (r + 1) * (r + 1) = r * r + (2 * r + 1) := by ring
    rw [if_neg h0]
    refine sameRoot_of_between (m := r) (q := q + 1) hr ⟨?_, ?_⟩ ⟨?_, ?_⟩
    · rw [hlow, mul_lt_mul_iff_left₀ hpos, Nat.cast_lt]
      omega
    · rw [hlow, mul_lt_mul_iff_left₀ hpos, Nat.cast_lt]
      omega
    · rw [hsq, mul_lt_mul_iff_left₀ hpos', Nat.cast_lt]
      omega
    · rw [hsq, mul_lt_mul_iff_left₀ hpos', Nat.cast_lt]
      omega

/-- The significand of an operand is read as 53 or 54 bits at an even exponent. -/
theorem sqrtFinite_eq (h : x.rank ≠ 0) : ∃ (bits : UInt64) (b : ℕ) (p : ℤ),
    (∀ mode, x.sqrtFinite mode = round mode false (extendRoot 55 bits 0 0) (p - 29)) ∧ bits.toNat = b * 2 ^ 10 ∧
      2 ^ 52 ≤ b ∧ x.magnitude = b * (2 ^ p) ^ 2 := by
  obtain ⟨hge, hlt, hmag⟩ := fullSignificand_spec h
  have hsq (p : ℤ) : ((2 : ℚ) ^ p) ^ 2 = 2 ^ (2 * p) := by
    rw [two_mul, zpow_add₀ two_ne_zero, pow_two]
  rcases Int.emod_two_eq_zero_or_one x.fullExponent with heven | hodd
  · refine ⟨x.fullSignificand <<< 10, x.fullSignificand.toNat, x.fullExponent / 2, fun mode => ?_, ?_, hge, ?_⟩
    · simp only [sqrtFinite, heven, zero_ne_one, if_false]
    · exact toNat_shiftLeft_of_lt rfl (by decide) (by omega)
    · rw [hmag, hsq]
      congr 2
      omega
  · refine ⟨x.fullSignificand <<< 11, 2 * x.fullSignificand.toNat, x.fullExponent / 2, fun mode => ?_, ?_, by omega, ?_⟩
    · have hhalf : (x.fullExponent - 1) / 2 = x.fullExponent / 2 := by omega
      simp only [sqrtFinite, hodd, if_true, hhalf]
    · rw [toNat_shiftLeft_of_lt (n := 11) rfl (by decide) (by omega)]
      omega
    · have hexp : x.fullExponent = 2 * (x.fullExponent / 2) + (1 : ℕ) := by omega
      rw [hmag, hsq, hexp, two_zpow_add, ← hexp, ← mul_assoc, Nat.mul_comm, Nat.cast_mul]
      rfl

/-- One value stands for the root in every direction. -/
theorem sqrtFinite_isRounding (h : x.rank ≠ 0) :
    ∃ v, 0 ≤ v ∧ SameRoot v x.magnitude ∧ ∀ mode, IsRounding mode false v (x.sqrtFinite mode) := by
  obtain ⟨bits, b, p, hx, hbits, hb, hmag⟩ := sqrtFinite_eq h
  obtain ⟨r, t, hroot, hlt, ht, heq⟩ := extendRoot_spec 55 bits 0 0 (by decide) (by decide)
  have hsum : r.toNat * r.toNat + t.toNat = b * 2 ^ 56 := by
    have hpow : 2 ^ 10 * 4 ^ 55 = 2 ^ 56 * 2 ^ 64 := by decide
    rw [heq, hbits, UInt64.toNat_zero, Nat.mul_zero, Nat.zero_add, Nat.zero_mul, Nat.zero_add, Nat.mul_assoc b, hpow,
      ← Nat.mul_assoc, Nat.mul_div_cancel _ (Nat.two_pow_pos 64)]
  have hr : 2 ^ 52 ≤ r.toNat := by
    by_contra hnot
    have hsq : r.toNat * r.toNat ≤ 2 ^ 52 * 2 ^ 52 := Nat.mul_le_mul (by omega) (by omega)
    omega
  have hn : (extendRoot 55 bits 0 0).toNat = 2 * r.toNat + if t.toNat = 0 then 0 else 1 := by
    rw [hroot, toNat_withSticky (by omega)]
    simp only [beq_iff_eq, ← UInt64.toNat_inj, UInt64.toNat_zero]
  refine ⟨(extendRoot 55 bits 0 0).toNat * 2 ^ (p - 29), by positivity, ?_,
    fun mode => hx mode ▸ round_isRounding mode false _ ?_⟩
  · have hval : x.magnitude = (r.toNat * r.toNat + t.toNat : ℕ) * (2 ^ (p - 29 + 1)) ^ 2 := by
      have hexp : (2 : ℚ) ^ p = (2 ^ 28 : ℕ) * 2 ^ (p - 29 + 1) := by
        rw [← two_zpow_add]
        congr 1
        omega
      rw [hsum, hmag, hexp, mul_pow, ← mul_assoc, Nat.cast_mul]
      congr 2
    rw [hn, hval]
    exact sameRoot_digits hr ht
  · rw [hn]
    split <;> omega

/-! ## Neighbours -/

theorem nextUp_spec (hx : x.isFinite = true) (hs : x.isNegative = false) :
    x.nextUp.isNegative = false ∧ x.nextUp.rank = x.rank + 1 := by
  have hinf : x ≠ infinity false := by
    rintro rfl
    exact absurd hx (by decide)
  have hbits := x.toNat_bits
  rw [hs, if_neg Bool.false_ne_true] at hbits
  rw [Binary64.nextUp, isNaN_of_isFinite hx, beq_false_of_ne hinf, hs]
  simp only [Bool.or_false, Bool.false_eq_true, if_false]
  rw [isFinite_iff, toNat_exponentField] at hx
  split
  · rename_i hz
    rw [isZero_iff.mp hz]
    decide
  · have hadd : (x.bits + 1).toNat = x.rank + 1 := by
      rw [UInt64.toNat_add, hbits]
      exact Nat.mod_eq_of_lt (show x.rank + 1 < 2 ^ 64 by omega)
    constructor
    · rw [← Bool.not_eq_true, isNegative_iff, hadd]
      omega
    · rw [rank, hadd]
      exact Nat.mod_eq_of_lt (by omega)

theorem nextDown_spec (hx : x.isFinite = true) (hs : x.isNegative = false) (h0 : x.rank ≠ 0) :
    x.nextDown.isNegative = false ∧ x.nextDown.rank + 1 = x.rank := by
  have hneg : x.negate.isNegative = true := by rw [isNegative_negate, hs, Bool.not_false]
  have hinf : x.negate ≠ infinity false := by
    intro h
    rw [h, isNegative_infinity] at hneg
    cases hneg
  have hz : x.negate.isZero = false := by rwa [isZero_eq_false_iff, rank_negate]
  have hlt := x.rank_lt
  have hbits := x.negate.toNat_bits
  rw [hneg, if_pos rfl, rank_negate] at hbits
  have hsub : (x.negate.bits - 1).toNat = x.rank - 1 + 2 ^ 63 := by
    rw [UInt64.toNat_sub_of_le _ _ (UInt64.le_iff_toNat_le.mpr (by rw [hbits, UInt64.toNat_one]; omega)), hbits,
      UInt64.toNat_one]
    omega
  have hup : x.negate.nextUp = ⟨x.negate.bits - 1⟩ := by
    rw [Binary64.nextUp, isNaN_negate, isNaN_of_isFinite hx, beq_false_of_ne hinf, hz, hneg]
    rfl
  rw [Binary64.nextDown, hup, isNegative_negate, rank_negate]
  constructor
  · rw [Bool.not_eq_false', isNegative_iff, hsub]
    exact Nat.le_add_left _ _
  · rw [rank, hsub]
    omega

/-- A neighbour below the value is followed by the one above it. -/
theorem IsNeighbour.nextUp (h : IsNeighbour false v x) (hx : x.isFinite = true) (hlt : x.magnitude < v)
    (hmode : mode.overflows false = true) : IsRounding mode false v x.nextUp := by
  obtain ⟨hs, hrank⟩ := nextUp_spec hx h.isNegative
  rw [isFinite_iff, toNat_exponentField] at hx
  refine ⟨⟨hs, ?_, fun y hy hle => ?_, fun y hy hle => ?_⟩, fun hno => ?_, fun _ _ hf => ?_⟩
  · rw [← Bool.not_eq_true, isNaN_iff]
    omega
  · have hxy := hlt.trans_le hle
    rw [magnitude_lt_iff] at hxy
    rw [magnitude_le_iff]
    omega
  · have hyx := h.ge y hy hle
    rw [magnitude_le_iff] at hyx ⊢
    omega
  · rw [hmode] at hno
    cases hno
  · by_contra hnot
    have hle := h.ge x.nextUp hf (not_le.mp hnot).le
    rw [magnitude_le_iff] at hle
    omega

/-- A neighbour above the value follows the one below it. -/
theorem IsNeighbour.nextDown (h : IsNeighbour false v x) (hx : x.isFinite = true) (hv : 0 ≤ v) (hlt : v < x.magnitude)
    (hmode : mode.overflows false = false) : IsRounding mode false v x.nextDown := by
  have h0 : x.rank ≠ 0 := by
    intro h0
    rw [magnitude_eq, h0] at hlt
    exact absurd (hv.trans_lt hlt) (by simp [units])
  obtain ⟨hs, hrank⟩ := nextDown_spec hx h.isNegative h0
  have hf : x.nextDown.isFinite = true := by
    rw [isFinite_iff, toNat_exponentField] at hx ⊢
    omega
  refine ⟨⟨hs, isNaN_of_isFinite hf, fun y hy hle => ?_, fun y _ hle => ?_⟩, fun _ => ⟨hf, ?_⟩, fun _ hover => ?_⟩
  · have hxy := h.le y hy hle
    rw [magnitude_le_iff] at hxy ⊢
    omega
  · have hyx := hle.trans_lt hlt
    rw [magnitude_lt_iff] at hyx
    rw [magnitude_le_iff]
    omega
  · by_contra hnot
    have hle := h.le x.nextDown hf (not_le.mp hnot).le
    rw [magnitude_le_iff] at hle
    omega
  · rw [hmode] at hover
    cases hover

/-! ## Squares -/

/-- The square fits into quadruple precision: 106 bits, at an exponent in its range. -/
def SquareFits (x : Binary64) : Prop :=
  x.significand.toNat * x.significand.toNat < 2 ^ 106 ∧ -16494 ≤ 2 * x.exponent ∧ 2 * x.exponent + 106 ≤ 16384

theorem squareFits_of_isFinite (hx : x.isFinite = true) : x.SquareFits := by
  have hsig := x.significand_lt
  have hexp := x.exponent_eq
  rw [isFinite_iff] at hx
  refine ⟨?_, by omega, by omega⟩
  calc x.significand.toNat * x.significand.toNat < 2 ^ 53 * 2 ^ 53 := Nat.mul_lt_mul'' hsig hsig
    _ = 2 ^ 106 := by decide

theorem compareSquare_spec (x y : Binary64) : (compareSquare x y = .gt ↔ y.magnitude < x.magnitude ^ 2) ∧
    (compareSquare x y = .lt ↔ x.magnitude ^ 2 < y.magnitude) := by
  obtain ⟨c, hx, hy⟩ : ∃ c : ℤ, 2 * x.exponent = c + (2 * x.exponent - y.exponent).toNat ∧
      y.exponent = c + (y.exponent - 2 * x.exponent).toNat := ⟨min (2 * x.exponent) y.exponent, by omega, by omega⟩
  have hpos : (0 : ℚ) < 2 ^ c := zpow_pos two_pos _
  have hsq : x.magnitude ^ 2 =
      ((x.significand.toNat * x.significand.toNat) <<< (2 * x.exponent - y.exponent).toNat : ℕ) * 2 ^ c := by
    rw [magnitude, mul_pow, pow_two (2 ^ x.exponent), ← zpow_add₀ two_ne_zero, ← two_mul, hx, two_zpow_add, ← hx,
      Nat.shiftLeft_eq, Nat.cast_mul, Nat.cast_mul]
    ring
  have hmag : y.magnitude = (y.significand.toNat <<< (y.exponent - 2 * x.exponent).toNat : ℕ) * 2 ^ c := by
    rw [magnitude, hy, two_zpow_add, ← hy, Nat.shiftLeft_eq, Nat.cast_mul, ← mul_assoc]
  rw [compareSquare, Nat.compare_eq_gt, Nat.compare_eq_lt, hsq, hmag, mul_lt_mul_iff_left₀ hpos,
    mul_lt_mul_iff_left₀ hpos, Nat.cast_lt, Nat.cast_lt]
  exact ⟨Iff.rfl, Iff.rfl⟩

/-! ## Directions -/

theorem nearestRoot_eq (hx : x.isFinite = true) (hs : x.isNegative = false) (h0 : x.isZero = false) :
    x.nearestRoot = x.sqrtFinite .nearest := by
  rw [nearestRoot, isNaN_of_isFinite hx, h0, hs, isInfinite_of_isFinite hx]
  rfl

/-- A root keeps the powers of two below it that are not above one. -/
theorem SameRoot.two_zpow_le (hv : SameRoot v w) (hlo : -1074 ≤ k) (hhi : k ≤ 0) (hk : 2 ^ k ≤ w) : 2 ^ k ≤ v := by
  obtain ⟨z, hz, hmag⟩ := exists_magnitude_eq_two_zpow hlo (hhi.trans (by decide))
  rw [← hmag] at hk ⊢
  refine (hv z hz).1.mpr (le_trans ?_ hk)
  rw [pow_two]
  exact mul_le_of_le_one_left z.magnitude_nonneg (hmag ▸ zpow_le_one_of_nonpos₀ one_le_two hhi)

/-- The root of a positive finite number is neither infinite nor zero. -/
theorem IsRounding.isFinite_root {r : Binary64} (h : IsRounding mode false v r) (hv : SameRoot v x.magnitude)
    (hx : x.isFinite = true) (h0 : x.rank ≠ 0) : r.isFinite = true ∧ r.rank ≠ 0 := by
  constructor
  · obtain ⟨z, hz, hmag⟩ := exists_magnitude_eq_two_zpow (k := 512) (by decide) (by decide)
    have hsq : x.magnitude ≤ z.magnitude ^ 2 := by
      rw [hmag, pow_two, ← zpow_add₀ two_ne_zero]
      exact (isFinite_iff_magnitude_lt.mp hx).le
    exact isFinite_iff_magnitude_lt.mpr
      ((h.le z hz ((hv z hz).2.mpr hsq)).trans_lt (isFinite_iff_magnitude_lt.mp hz))
  · have hle : 2 ^ (-1074 : ℤ) ≤ x.magnitude := by
      rw [magnitude_eq]
      refine le_mul_of_one_le_left (zpow_pos two_pos _).le ?_
      exact Nat.one_le_cast.mpr (Nat.le_trans (Nat.pos_of_ne_zero h0) units_strictMono.le_apply)
    exact (h.isAtLeast le_rfl (by decide) (hv.two_zpow_le le_rfl (by decide) hle)).rank_ne_zero

theorem sqrt_eq_correct (hmode : mode ≠ .nearest) (hf : x.nearestRoot.isFinite = true)
    (hz : x.nearestRoot.isZero = false) : x.sqrt mode = correct mode (compareSquare x.nearestRoot x) x.nearestRoot := by
  rw [sqrt, hf, hz, beq_false_of_ne hmode]
  rfl

theorem correct_of_toward {order : Ordering} (hmode : mode.overflows false = false) (x : Binary64) :
    correct mode order x = if order = .gt then x.nextDown else x := by
  cases mode with
  | nearest | up => cases hmode
  | down | zero => cases order <;> rfl

theorem correct_up (order : Ordering) (x : Binary64) :
    correct .up order x = if order = .lt then x.nextUp else x := by
  cases order <;> rfl

/-- One place is enough to correct the nearest root, and the comparison tells when it is needed. -/
theorem sqrt_isRounding (hx : x.isFinite = true) (hs : x.isNegative = false) (h0 : x.isZero = false) :
    ∃ v, SameRoot v x.magnitude ∧ ∀ mode, IsRounding mode false v (x.sqrt mode) := by
  have hrank := isZero_eq_false_iff.mp h0
  obtain ⟨v, hv0, hv, hround⟩ := sqrtFinite_isRounding hrank
  refine ⟨v, hv, fun mode => ?_⟩
  have hr := hround .nearest
  rw [← nearestRoot_eq hx hs h0] at hr
  obtain ⟨hf, hne⟩ := hr.isFinite_root hv hx hrank
  have hz := isZero_eq_false_iff.mpr hne
  -- Comparing the square with `x` is comparing the root with `v`, as no finite double tells `v` from the real root.
  obtain ⟨hgt, hlt⟩ := compareSquare_spec x.nearestRoot x
  obtain ⟨hle, hge⟩ := hv x.nearestRoot hf
  rw [← not_le, ← hle, not_le] at hgt
  rw [← not_le, ← hge, not_le] at hlt
  cases hmode : mode.overflows false with
  | false =>
      have hnearest : mode ≠ .nearest := by
        rintro rfl
        cases hmode
      rw [sqrt_eq_correct hnearest hf hz, correct_of_toward hmode]
      split
      · exact hr.toIsNeighbour.nextDown hf hv0 (hgt.mp ‹_›) hmode
      · refine ⟨hr.toIsNeighbour, fun _ => ⟨hf, not_lt.mp (mt hgt.mpr ‹_›)⟩, fun _ hover => ?_⟩
        rw [hmode] at hover
        cases hover
  | true =>
      cases mode with
      | down | zero => cases hmode
      | nearest =>
          have hroot : x.sqrt .nearest = x.nearestRoot := rfl
          rwa [hroot]
      | up =>
          have hnearest : Rounding.up ≠ .nearest := nofun
          rw [sqrt_eq_correct hnearest hf hz, correct_up]
          split
          · exact hr.toIsNeighbour.nextUp hf (hlt.mp ‹_›) hmode
          · exact ⟨hr.toIsNeighbour, nofun, fun _ _ _ => not_lt.mp (mt hlt.mpr ‹_›)⟩

/-! ## Results -/

theorem toRat_pos_iff : 0 < x.toRat ↔ x.isNegative = false ∧ x.isZero = false := by
  have hx := x.magnitude_nonneg
  have hzero : x.magnitude = 0 ↔ x.isZero = true := by
    rw [isZero_iff, magnitude_eq, mul_eq_zero, or_iff_left (zpow_pos two_pos _).ne', Nat.cast_eq_zero]
    exact ⟨fun h => Nat.le_zero.mp (units_strictMono.le_apply.trans h.le), fun h => by rw [h]; rfl⟩
  rw [toRat, ← Bool.not_eq_true x.isZero, ← hzero]
  cases x.isNegative
  · simp [hx.lt_iff_ne, eq_comm]
  · simp [hx]

/-- The greatest number whose square is not above that of which it is the root. -/
structure IsRootFloor (x s : Binary64) : Prop where
  isFinite : s.isFinite = true
  nonneg : 0 ≤ s.toRat
  sq_le : s.toRat ^ 2 ≤ x.toRat
  greatest : ∀ y : Binary64, y.isFinite = true → y.toRat ^ 2 ≤ x.toRat → y.toRat ≤ s.toRat

/-- The least number, none of the negative ones, whose square is not below that of which it is the root. -/
structure IsRootCeil (x s : Binary64) : Prop where
  isFinite : s.isFinite = true
  nonneg : 0 ≤ s.toRat
  le_sq : x.toRat ≤ s.toRat ^ 2
  least : ∀ y : Binary64, y.isFinite = true → 0 ≤ y.toRat → x.toRat ≤ y.toRat ^ 2 → s.toRat ≤ y.toRat

theorem IsRounding.isRootFloor {s : Binary64} (h : IsRounding mode false v s) (hv : SameRoot v x.magnitude)
    (hx : x.toRat = x.magnitude) (hmode : mode.overflows false = false) : IsRootFloor x s := by
  have hs := toRat_of_isNegative h.isNegative
  obtain ⟨hf, hle⟩ := h.toward hmode
  refine ⟨hf, hs ▸ s.magnitude_nonneg, ?_, fun y hy hsq => ?_⟩
  · rw [toRat_sq, hx]
    exact (hv s hf).1.mp hle
  · rw [toRat_sq, hx] at hsq
    rw [hs]
    exact (y.abs_toRat ▸ le_abs_self y.toRat).trans (h.ge y hy ((hv y hy).1.mpr hsq))

theorem IsRounding.isRootCeil {s : Binary64} (h : IsRounding .up false v s) (hv : SameRoot v x.magnitude)
    (hx : x.toRat = x.magnitude) (hf : s.isFinite = true) : IsRootCeil x s := by
  have hs := toRat_of_isNegative h.isNegative
  refine ⟨hf, hs ▸ s.magnitude_nonneg, ?_, fun y hy hy0 hsq => ?_⟩
  · rw [toRat_sq, hx]
    exact (hv s hf).2.mp (h.away nofun rfl hf)
  · rw [toRat_sq, hx] at hsq
    rw [hs, ← abs_of_nonneg hy0, abs_toRat]
    exact h.le y hy ((hv y hy).2.mpr hsq)

theorem sqrt_of_isZero (h : x.isZero = true) (mode : Rounding) : x.sqrt mode = x := by
  have hnan : x.isNaN = false := by
    rw [← Bool.not_eq_true, isNaN_iff, isZero_iff.mp h]
    decide
  have hroot : x.nearestRoot = x := by simp [nearestRoot, hnan, h]
  simp [sqrt, hroot, h]

theorem sqrt_infinity (mode : Rounding) : (infinity false).sqrt mode = infinity false := by
  cases mode <;> decide

/-- Directed roots of positive numbers are the exact ones, rounded once. The root that is corrected on the way to them is
finite, and its square fits into quadruple precision. Zeros and infinity are their own roots. -/
theorem directed_root_is_exact (x : Binary64) :
    (x.isFinite = true → 0 < x.toRat →
      IsRootFloor x (x.sqrt .down) ∧ IsRootFloor x (x.sqrt .zero) ∧ IsRootCeil x (x.sqrt .up) ∧
        x.nearestRoot.isFinite = true ∧ x.nearestRoot.SquareFits) ∧
    (x.isZero = true ∨ x = infinity false → ∀ mode, x.sqrt mode = x) := by
  refine ⟨fun hx hpos => ?_, ?_⟩
  · obtain ⟨hs, h0⟩ := toRat_pos_iff.mp hpos
    obtain ⟨v, hv, hround⟩ := sqrt_isRounding hx hs h0
    have hmag := toRat_of_isNegative hs
    have hrank := isZero_eq_false_iff.mp h0
    have hnearest : x.nearestRoot.isFinite = true := ((hround .nearest).isFinite_root hv hx hrank).1
    exact ⟨(hround .down).isRootFloor hv hmag rfl, (hround .zero).isRootFloor hv hmag rfl,
      (hround .up).isRootCeil hv hmag ((hround .up).isFinite_root hv hx hrank).1, hnearest,
      squareFits_of_isFinite hnearest⟩
  · rintro (h | rfl) mode
    · exact sqrt_of_isZero h mode
    · exact sqrt_infinity mode

/-- The roots of two lie on both sides of it, and negative zero is its own root. -/
theorem roots_of_two_and_negative_zero :
    IsRootFloor ⟨0x4000000000000000⟩ ⟨0x3FF6A09E667F3BCC⟩ ∧ IsRootCeil ⟨0x4000000000000000⟩ ⟨0x3FF6A09E667F3BCD⟩ ∧
      ∀ mode, (zero true).sqrt mode = zero true := by
  obtain ⟨hdown, _, hup, _⟩ :=
    (directed_root_is_exact ⟨0x4000000000000000⟩).1 (by decide) (toRat_pos_iff.mpr ⟨by decide, by decide⟩)
  have hdown' : sqrt .down ⟨0x4000000000000000⟩ = ⟨0x3FF6A09E667F3BCC⟩ := by decide +kernel
  have hup' : sqrt .up ⟨0x4000000000000000⟩ = ⟨0x3FF6A09E667F3BCD⟩ := by decide +kernel
  rw [hdown'] at hdown
  rw [hup'] at hup
  exact ⟨hdown, hup, (directed_root_is_exact (zero true)).2 (.inl (by decide))⟩

/-! ## Lower bounds -/

theorem IsAtLeast.sqrt (h : x.IsAtLeast k) (hlo : -1074 ≤ k) (hhi : k ≤ 0) (mode : Rounding) :
    (x.sqrt mode).IsAtLeast k := by
  rcases h.isFinite_or with hx | ⟨_, hinf⟩
  · obtain ⟨v, hv, hround⟩ := sqrt_isRounding hx h.isNegative h.isZero
    exact (hround mode).isAtLeast hlo (hhi.trans (by decide)) (hv.two_zpow_le hlo hhi h.le)
  · have heq : x = infinity false := by
      rw [eq_infinity hinf, h.isNegative]
    rw [heq, sqrt_infinity]
    exact infinity_isAtLeast hhi

end RandomX.Binary64
