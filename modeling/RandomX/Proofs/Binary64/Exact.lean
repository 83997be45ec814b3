import RandomX.Proofs.Binary64.Directed
import RandomX.Proofs.Binary64.Product

/-!
# Exact results

Sums, products and quotients are the exact ones, rounded in the direction that was asked for. What is not a rational
number, or has a sign that no rational number tells, is given case by case.
-/
namespace RandomX.Binary64

variable {x y : Binary64} {mode : Rounding} {v : ℚ}

/-! ## Sums of zero -/

theorem rank_eq_of_toRat_add (h : x.toRat + y.toRat = 0) :
    x.rank = y.rank ∧ (x.isNegative = y.isNegative → y.rank = 0) := by
  have hx := x.magnitude_nonneg
  have hy := y.magnitude_nonneg
  rw [toRat_eq, toRat_eq, signed_add, signed_eq_zero_iff] at h
  have hmag : x.magnitude = y.magnitude := by
    split at h <;> linarith
  refine ⟨le_antisymm (magnitude_le_iff.mp hmag.le) (magnitude_le_iff.mp hmag.ge), fun hs => ?_⟩
  rw [if_pos hs] at h
  have hzero : y.magnitude ≤ (zero false).magnitude := (zero false).magnitude_nonneg.trans' (by linarith)
  exact Nat.le_zero.mp (magnitude_le_iff.mp hzero)

/-- A sum of zero keeps the sign of two zeros. -/
theorem addFinite_zero (mode : Rounding) (h : x.toRat + y.toRat = 0) : addFinite mode x y = zero
    (if x.isZero = true ∧ y.isZero = true ∧ x.isNegative = y.isNegative then x.isNegative else mode == .down) := by
  obtain ⟨hrank, hzero⟩ := rank_eq_of_toRat_add h
  have hsigns : (x.isZero = true ∧ y.isZero = true ∧ x.isNegative = y.isNegative) ↔ x.isNegative = y.isNegative := by
    rw [isZero_iff, isZero_iff, hrank]
    exact ⟨fun h => h.2.2, fun h => ⟨hzero h, hzero h, h⟩⟩
  have hexp : x.exponent = y.exponent := by
    rw [exponent_eq, exponent_eq, toNat_exponentField, toNat_exponentField, hrank]
  have hsig : x.significand = y.significand := by
    rw [← UInt64.toNat_inj, toNat_significand, toNat_significand, toNat_exponentField, toNat_exponentField,
      toNat_fraction, toNat_fraction, hrank]
  have hshift (n : UInt64) : n <<< (0 : Nat).toUInt64 = n := UInt64.shiftLeft_zero
  rw [addFinite, if_neg (not_lt.mpr hexp.ge), addAligned, hexp, sub_self, hsig]
  simp only [Int.toNat_zero, Nat.zero_le, if_true, hshift, addSigned, beq_iff_eq, hsigns]
  split
  · rename_i hs
    have hsig : y.significand = 0 := by
      rw [← UInt64.toNat_inj, toNat_significand, toNat_exponentField, toNat_fraction, hzero hs]
      rfl
    rw [hsig]
    rfl
  · rw [if_neg (UInt64.lt_irrefl _), if_neg (UInt64.lt_irrefl _)]

/-! ## Results -/

theorem IsRounded.isNaN (h : IsRounded mode v x) : x.isNaN = false := by
  cases mode with
  | nearest => exact h.elim IsFloor.isNaN IsCeil.isNaN
  | down => exact IsFloor.isNaN h
  | up => exact IsCeil.isNaN h
  | zero => exact (le_total 0 v).elim (fun hv => (h.1 hv).isNaN) (fun hv => (h.2 hv).isNaN)

/-- What a sum is in every case. That of finite numbers is the exact one, rounded, and zero is negative only if both
numbers are negative zeros or when rounding down. -/
structure IsSum (mode : Rounding) (x y z : Binary64) : Prop where
  isNaN_iff : z.isNaN = true ↔ x.isNaN = true ∨ y.isNaN = true ∨
    x.isInfinite = true ∧ y.isInfinite = true ∧ x.isNegative ≠ y.isNegative
  isRounded : x.isFinite = true → y.isFinite = true → IsRounded mode (x.toRat + y.toRat) z
  zero : x.isFinite = true → y.isFinite = true → x.toRat + y.toRat = 0 →
    z = zero (if x.isZero = true ∧ y.isZero = true ∧ x.isNegative = y.isNegative then x.isNegative else mode == .down)
  infinite : z.isNaN = false → (x.isInfinite = true → z = x) ∧ (y.isInfinite = true → z = y)

/-- What a product is in every case. Zero and infinity have a sign like all others. -/
structure IsProduct (mode : Rounding) (x y z : Binary64) : Prop where
  isNaN_iff : z.isNaN = true ↔ x.isNaN = true ∨ y.isNaN = true ∨
    x.isInfinite = true ∧ y.isZero = true ∨ x.isZero = true ∧ y.isInfinite = true
  isNegative : z.isNaN = false → z.isNegative = (x.isNegative != y.isNegative)
  isRounded : x.isFinite = true → y.isFinite = true → IsRounded mode (x.toRat * y.toRat) z
  infinite : z.isNaN = false → x.isInfinite = true ∨ y.isInfinite = true → z.isInfinite = true

/-- What a quotient is in every case. By zero it is infinite, and by infinity it is zero. -/
structure IsQuotient (mode : Rounding) (x y z : Binary64) : Prop where
  isNaN_iff : z.isNaN = true ↔ x.isNaN = true ∨ y.isNaN = true ∨
    x.isZero = true ∧ y.isZero = true ∨ x.isInfinite = true ∧ y.isInfinite = true
  isNegative : z.isNaN = false → z.isNegative = (x.isNegative != y.isNegative)
  isRounded : x.isFinite = true → y.isFinite = true → y.isZero = false → IsRounded mode (x.toRat / y.toRat) z
  infinite : z.isNaN = false → x.isInfinite = true ∨ y.isZero = true → z.isInfinite = true
  zero : z.isNaN = false → y.isInfinite = true → z.isZero = true

theorem isNaN_nan : nan.isNaN = true := by
  decide

theorem nan_elim {p : Prop} (h : nan.isNaN = false) : p := by
  cases h

theorem isNaN_zero (s : Bool) : (zero s).isNaN = false := by
  cases s <;> decide

theorem isZero_zero (s : Bool) : (zero s).isZero = true := by
  cases s <;> decide

theorem isNaN_infinity (s : Bool) : (infinity s).isNaN = false := by
  cases s <;> decide

theorem isInfinite_infinity (s : Bool) : (infinity s).isInfinite = true := by
  cases s <;> decide

theorem isNegative_infinity (s : Bool) : (infinity s).isNegative = s := by
  cases s <;> decide

/-- The cases of a sum of which one number is not finite. -/
theorem add_cases (mode : Rounding) (hf : (x.isFinite && y.isFinite) = false) :
    x.add mode y = nan ∧ (x.isNaN = true ∨ y.isNaN = true ∨
        x.isInfinite = true ∧ y.isInfinite = true ∧ x.isNegative ≠ y.isNegative) ∨
      x.add mode y = x ∧ x.isNaN = false ∧ y.isNaN = false ∧ (y.isInfinite = true → x = y) ∨
      x.add mode y = y ∧ x.isNaN = false ∧ y.isNaN = false ∧ x.isInfinite = false := by
  cases x.kind with
  | nan hx hxn _ => exact .inl ⟨by simp [add, hx, hxn], .inl hxn⟩
  | infinite hx hxn hxi =>
      have hxe := eq_infinity hxi
      cases y.kind with
      | nan hy hyn _ => exact .inl ⟨by simp [add, hx, hyn], .inr (.inl hyn)⟩
      | infinite hy hyn hyi =>
          by_cases hs : x.isNegative = y.isNegative
          · have hz : x.add mode y = infinity x.isNegative := by simp [add, hx, hxn, hyn, hxi, hs]
            exact .inr (.inl ⟨hz.trans hxe.symm, hxn, hyn, fun _ => hxe.trans (hs ▸ (eq_infinity hyi).symm)⟩)
          · exact .inl ⟨by simp [add, hx, hxn, hyn, hxi, hyi, hs], .inr (.inr ⟨hxi, hyi, hs⟩)⟩
      | finite hy hyn hyi =>
          have hz : x.add mode y = infinity x.isNegative := by simp [add, hx, hxn, hyn, hxi, hyi]
          exact .inr (.inl ⟨hz.trans hxe.symm, hxn, hyn, by simp [hyi]⟩)
  | finite hx hxn hxi =>
      cases y.kind with
      | nan hy hyn _ => exact .inl ⟨by simp [add, hy, hyn], .inr (.inl hyn)⟩
      | infinite hy hyn hyi =>
          have hz : x.add mode y = infinity y.isNegative := by simp [add, hy, hxn, hyn, hxi]
          exact .inr (.inr ⟨hz.trans (eq_infinity hyi).symm, hxn, hyn, hxi⟩)
      | finite hy => simp [hx, hy] at hf

theorem add_isSum (mode : Rounding) (x y : Binary64) : IsSum mode x y (x.add mode y) := by
  cases hf : x.isFinite && y.isFinite with
  | true =>
      obtain ⟨hx, hy⟩ := Bool.and_eq_true_iff.mp hf
      have hround := (addFinite_isSignedRounding mode x y).isRounded
      have hxi := isInfinite_of_isFinite hx
      have hyi := isInfinite_of_isFinite hy
      rw [add_eq_addFinite hx hy]
      exact ⟨by simp [hround.isNaN, isNaN_of_isFinite hx, isNaN_of_isFinite hy, hxi], fun _ _ => hround,
        fun _ _ => addFinite_zero mode, by simp [hxi, hyi]⟩
  | false =>
      have hfinite {p : Prop} (hx : x.isFinite = true) (hy : y.isFinite = true) : p := by simp [hx, hy] at hf
      rcases add_cases mode hf with ⟨hz, hinvalid⟩ | ⟨hz, hxn, hyn, hxy⟩ | ⟨hz, hxn, hyn, hxi⟩
      · rw [hz]
        exact ⟨iff_of_true isNaN_nan hinvalid, hfinite, hfinite, nan_elim⟩
      · have hvalid : ¬ (x.isInfinite = true ∧ y.isInfinite = true ∧ x.isNegative ≠ y.isNegative) := by
          rintro ⟨_, hyi, hs⟩
          exact hs (congrArg Binary64.isNegative (hxy hyi))
        rw [hz]
        exact ⟨by simpa [hxn, hyn] using hvalid, hfinite, hfinite, fun _ => ⟨fun _ => rfl, hxy⟩⟩
      · rw [hz]
        exact ⟨by simp [hxn, hyn, hxi], hfinite, hfinite, fun _ => ⟨by simp [hxi], fun _ => rfl⟩⟩

theorem mul_isProduct (mode : Rounding) (x y : Binary64) : IsProduct mode x y (x.mul mode y) := by
  cases hf : x.isFinite && y.isFinite with
  | true =>
      obtain ⟨hx, hy⟩ := Bool.and_eq_true_iff.mp hf
      have hround := mulFinite_isRounding mode (x.isNegative != y.isNegative) x y
      have hxi := isInfinite_of_isFinite hx
      have hyi := isInfinite_of_isFinite hy
      rw [mul, hf, if_pos rfl]
      refine ⟨?_, fun _ => hround.isNegative, fun _ _ => ?_, ?_⟩
      · simp [hround.isNaN, isNaN_of_isFinite hx, isNaN_of_isFinite hy, hxi, hyi]
      · rw [toRat_eq, toRat_eq, signed_mul]
        exact hround.isRounded (mul_nonneg x.magnitude_nonneg y.magnitude_nonneg)
      · simp [hxi, hyi]
  | false =>
      -- One of the numbers is not finite, so a zero stands beside an infinity or a NaN.
      have hinvalid : (x.isNaN || y.isNaN || x.isZero || y.isZero) = true ↔ x.isNaN = true ∨ y.isNaN = true ∨
          x.isInfinite = true ∧ y.isZero = true ∨ x.isZero = true ∧ y.isInfinite = true := by
        cases x.kind <;> cases y.kind <;> simp_all
      have hround (hx : x.isFinite = true) (hy : y.isFinite = true) (z : Binary64) :
          IsRounded mode (x.toRat * y.toRat) z := by simp [hx, hy] at hf
      rw [mul, hf, if_neg Bool.false_ne_true]
      split
      · exact ⟨iff_of_true isNaN_nan (hinvalid.mp ‹_›), nan_elim, fun hx hy => hround hx hy _, nan_elim⟩
      · refine ⟨iff_of_false ?_ (mt hinvalid.mpr ‹_›), fun _ => isNegative_infinity _, fun hx hy => hround hx hy _,
          fun _ _ => isInfinite_infinity _⟩
        rw [isNaN_infinity]
        exact Bool.false_ne_true

/-- The cases of a quotient of which one number is not finite or the divisor is zero. -/
theorem div_cases (mode : Rounding) (h : ¬ (x.isFinite = true ∧ y.isFinite = true ∧ y.isZero = false)) :
    x.div mode y = nan ∧ (x.isNaN = true ∨ y.isNaN = true ∨ x.isZero = true ∧ y.isZero = true ∨
        x.isInfinite = true ∧ y.isInfinite = true) ∨
      x.div mode y = infinity (x.isNegative != y.isNegative) ∧ x.isNaN = false ∧ x.isZero = false ∧
        y.isNaN = false ∧ y.isInfinite = false ∨
      x.div mode y = zero (x.isNegative != y.isNegative) ∧ x.isNaN = false ∧ x.isInfinite = false ∧
        y.isNaN = false ∧ y.isZero = false := by
  cases x.kind with
  | nan hx hxn _ => exact .inl ⟨by simp [div, hx, hxn], .inl hxn⟩
  | infinite hx hxn hxi hxz =>
      cases y.kind with
      | nan hy hyn _ => exact .inl ⟨by simp [div, hx, hyn], .inr (.inl hyn)⟩
      | infinite hy hyn hyi => exact .inl ⟨by simp [div, hx, hxn, hyn, hxi, hyi], .inr (.inr (.inr ⟨hxi, hyi⟩))⟩
      | finite hy hyn hyi => exact .inr (.inl ⟨by simp [div, hx, hxn, hyn, hxi, hyi], hxn, hxz, hyn, hyi⟩)
  | finite hx hxn hxi =>
      cases y.kind with
      | nan hy hyn _ => exact .inl ⟨by simp [div, hy, hyn], .inr (.inl hyn)⟩
      | infinite hy hyn hyi hyz => exact .inr (.inr ⟨by simp [div, hy, hxn, hyn, hxi], hxn, hxi, hyn, hyz⟩)
      | finite hy hyn hyi =>
          have hyz : y.isZero = true := by simpa [hx, hy] using h
          cases hxz : x.isZero with
          | true => exact .inl ⟨by simp [div, hx, hy, hyz, hxz], .inr (.inr (.inl ⟨rfl, hyz⟩))⟩
          | false => exact .inr (.inl ⟨by simp [div, hx, hy, hyz, hxz], hxn, rfl, hyn, hyi⟩)

theorem div_isQuotient (mode : Rounding) (x y : Binary64) : IsQuotient mode x y (x.div mode y) := by
  by_cases h : x.isFinite = true ∧ y.isFinite = true ∧ y.isZero = false
  · obtain ⟨hx, hy, hyz⟩ := h
    have hround := divFinite_isRounding (x := x) mode (x.isNegative != y.isNegative) (isZero_eq_false_iff.mp hyz)
    have hxi := isInfinite_of_isFinite hx
    have hyi := isInfinite_of_isFinite hy
    have hz : x.div mode y = divFinite mode (x.isNegative != y.isNegative) x y := by simp [div, hx, hy, hyz]
    rw [hz]
    refine ⟨?_, fun _ => hround.isNegative, fun _ _ _ => ?_, ?_, ?_⟩
    · simp [hround.isNaN, isNaN_of_isFinite hx, isNaN_of_isFinite hy, hxi, hyi, hyz]
    · rw [toRat_eq, toRat_eq, signed_div]
      exact hround.isRounded (div_nonneg x.magnitude_nonneg y.magnitude_nonneg)
    · simp [hxi, hyz]
    · simp [hyi]
  · have hround (hx : x.isFinite = true) (hy : y.isFinite = true) (hyz : y.isZero = false) :
        IsRounded mode (x.toRat / y.toRat) (x.div mode y) := (h ⟨hx, hy, hyz⟩).elim
    rcases div_cases mode h with ⟨hz, hinvalid⟩ | ⟨hz, hxn, hxz, hyn, hyi⟩ | ⟨hz, hxn, hxi, hyn, hyz⟩
    · rw [hz] at hround ⊢
      exact ⟨iff_of_true isNaN_nan hinvalid, nan_elim, hround, nan_elim, nan_elim⟩
    · rw [hz] at hround ⊢
      exact ⟨by simp [isNaN_infinity, hxn, hxz, hyn, hyi], fun _ => isNegative_infinity _, hround,
        fun _ _ => isInfinite_infinity _, by simp [hyi]⟩
    · have hzero : (zero (x.isNegative != y.isNegative)).isNegative = (x.isNegative != y.isNegative) :=
        isNegative_ofParts (by decide) _
      rw [hz] at hround ⊢
      exact ⟨by simp [isNaN_zero, hxn, hxi, hyn, hyz], fun _ => hzero, hround, by simp [hxi, hyz],
        fun _ _ => isZero_zero _⟩

/-- Every operation gives the exact result, rounded in any direction. -/
theorem arithmetic_is_exact (mode : Rounding) (x y : Binary64) : IsSum mode x y (x.add mode y) ∧
    IsSum mode x y.negate (x.sub mode y) ∧ IsProduct mode x y (x.mul mode y) ∧ IsQuotient mode x y (x.div mode y) :=
  ⟨add_isSum mode x y, add_isSum mode x y.negate, mul_isProduct mode x y, div_isQuotient mode x y⟩

end RandomX.Binary64
