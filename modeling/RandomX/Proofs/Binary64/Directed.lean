import Mathlib.Data.EReal.Operations
import RandomX.Proofs.Binary64.Rounding

/-!
# Directions

Rounding down gives the greatest number that is not above the exact value and rounding up the least that is not below
it, infinite numbers included. Rounding toward zero is one of the two.
-/
namespace RandomX.Binary64

variable {x y : Binary64} {mode : Rounding} {s : Bool} {n : UInt64} {q : ℤ} {v w : ℚ}

/-! ## Extended values -/

/-- The value of a number that is not a NaN, infinite or not. -/
noncomputable def value (x : Binary64) : EReal :=
  if x.isFinite then ((x.toRat : ℝ) : EReal) else if x.isNegative then ⊥ else ⊤

theorem value_of_isFinite (h : x.isFinite = true) : x.value = ((x.toRat : ℝ) : EReal) :=
  if_pos h

theorem value_negate (x : Binary64) : x.negate.value = -x.value := by
  rw [value, value, isFinite_negate, isNegative_negate, toRat_negate]
  cases x.isFinite <;> cases x.isNegative <;> simp

/-- The greatest number that is not above `v`. -/
structure IsFloor (v : ℚ) (x : Binary64) : Prop where
  isNaN : x.isNaN = false
  le : x.value ≤ (v : ℝ)
  greatest : ∀ y : Binary64, y.isNaN = false → y.value ≤ (v : ℝ) → y.value ≤ x.value

/-- The least number that is not below `v`. -/
structure IsCeil (v : ℚ) (x : Binary64) : Prop where
  isNaN : x.isNaN = false
  le : (v : ℝ) ≤ x.value
  least : ∀ y : Binary64, y.isNaN = false → (v : ℝ) ≤ y.value → x.value ≤ y.value

theorem IsFloor.isCeil_negate (h : IsFloor v x) : IsCeil (-v) x.negate where
  isNaN := by rw [isNaN_negate, h.isNaN]
  le := by
    rw [value_negate, Rat.cast_neg, EReal.coe_neg, EReal.neg_le_neg_iff]
    exact h.le
  least y hy hle := by
    rw [value_negate, EReal.neg_le, ← value_negate]
    refine h.greatest y.negate (by rw [isNaN_negate, hy]) ?_
    rwa [value_negate, EReal.neg_le, ← EReal.coe_neg, ← Rat.cast_neg]

/-- What a direction makes of an exact value. Rounding to nearest gives one of the two neighbours. -/
def IsRounded (mode : Rounding) (v : ℚ) (x : Binary64) : Prop :=
  match mode with
  | .nearest => IsFloor v x ∨ IsCeil v x
  | .down => IsFloor v x
  | .up => IsCeil v x
  | .zero => (0 ≤ v → IsFloor v x) ∧ (v ≤ 0 → IsCeil v x)

/-! ## Neighbours -/

theorem IsNeighbour.negate (h : IsNeighbour s v x) : IsNeighbour (!s) v x.negate := by
  refine ⟨by rw [isNegative_negate, h.isNegative], by rw [isNaN_negate, h.isNaN], ?_, ?_⟩
  · rw [magnitude_negate]
    exact h.le
  · rw [magnitude_negate]
    exact h.ge

theorem IsNeighbour.value_eq (h : IsNeighbour s v x) (hx : x.isFinite = true) :
    x.value = ((signed s x.magnitude : ℚ) : ℝ) := by
  rw [value_of_isFinite hx, toRat_eq, h.isNegative]

/-- A number that is not above a rational is finite, or lies below all others. -/
theorem toRat_le_of_value_le (h : y.value ≤ (v : ℝ)) :
    y.isFinite = true ∧ y.toRat ≤ v ∨ y.value = ⊥ := by
  rw [value] at h ⊢
  split at h
  · rename_i hy
    exact .inl ⟨hy, by exact_mod_cast h⟩
  · rename_i hy
    rw [if_neg hy]
    split at h
    · rename_i hs
      exact .inr (if_pos hs)
    · exact absurd h (not_le.mpr (EReal.coe_lt_top _))

theorem IsNeighbour.isFloor (h : IsNeighbour false v x) (hx : x.isFinite = true ∧ x.magnitude ≤ v) : IsFloor v x := by
  have hval : x.value = ((x.magnitude : ℚ) : ℝ) := h.value_eq hx.1
  refine ⟨h.isNaN, ?_, fun y _ hle => ?_⟩
  · rw [hval]
    exact_mod_cast hx.2
  · rcases toRat_le_of_value_le hle with ⟨hf, hyv⟩ | hbot
    · have hmag : y.toRat ≤ x.magnitude := by
        rw [toRat] at hyv ⊢
        split at hyv
        · rw [if_pos ‹_›]
          exact (neg_nonpos.mpr y.magnitude_nonneg).trans x.magnitude_nonneg
        · rw [if_neg ‹_›]
          exact h.ge y hf hyv
      rw [hval, value_of_isFinite hf]
      exact_mod_cast hmag
    · rw [hbot]
      exact bot_le

theorem IsNeighbour.isFloor_neg (h : IsNeighbour true v x) (hv : 0 ≤ v) (hx : x.isFinite = true → v ≤ x.magnitude) :
    IsFloor (-v) x := by
  refine ⟨h.isNaN, ?_, fun y _ hle => ?_⟩
  · by_cases hf : x.isFinite = true
    · have hle : signed true x.magnitude ≤ -v := neg_le_neg (hx hf)
      rw [h.value_eq hf]
      exact_mod_cast hle
    · rw [value, if_neg hf, if_pos h.isNegative]
      exact bot_le
  · rcases toRat_le_of_value_le hle with ⟨hf, hyv⟩ | hbot
    · have hmag : v ≤ y.magnitude ∧ y.toRat = -y.magnitude := by
        have hnonneg := y.magnitude_nonneg
        rw [toRat] at hyv ⊢
        split at hyv
        · rw [if_pos ‹_›]
          exact ⟨neg_le_neg_iff.mp hyv, rfl⟩
        · rw [if_neg ‹_›]
          constructor <;> linarith
      have hle := h.le y hf hmag.1
      have hxf := isFinite_iff_magnitude_lt.mpr (hle.trans_lt (isFinite_iff_magnitude_lt.mp hf))
      have hneg : y.toRat ≤ signed true x.magnitude := hmag.2.trans_le (neg_le_neg hle)
      rw [h.value_eq hxf, value_of_isFinite hf]
      exact_mod_cast hneg
    · rw [hbot]
      exact bot_le

theorem IsNeighbour.isCeil (h : IsNeighbour false v x) (hv : 0 ≤ v) (hx : x.isFinite = true → v ≤ x.magnitude) :
    IsCeil v x := by
  have hceil := (h.negate.isFloor_neg hv (by rwa [isFinite_negate, magnitude_negate])).isCeil_negate
  rwa [neg_neg, negate_negate] at hceil

theorem IsNeighbour.isCeil_neg (h : IsNeighbour true v x) (hx : x.isFinite = true ∧ x.magnitude ≤ v) :
    IsCeil (-v) x := by
  have hceil := (h.negate.isFloor (by rwa [isFinite_negate, magnitude_negate])).isCeil_negate
  rwa [negate_negate] at hceil

/-- A neighbour on the side of its direction is the rounded value. -/
theorem IsRounding.isRounded (h : IsRounding mode s v x) (hv : 0 ≤ v) : IsRounded mode (signed s v) x := by
  have hzero (hle : v ≤ 0) (_ : x.isFinite = true) : v ≤ x.magnitude := hle.trans x.magnitude_nonneg
  cases mode with
  | nearest =>
      by_cases hx : x.isFinite = true ∧ x.magnitude ≤ v
      · cases s with
        | false => exact .inl (h.toIsNeighbour.isFloor hx)
        | true => exact .inr (h.toIsNeighbour.isCeil_neg hx)
      · have haway (hf : x.isFinite = true) : v ≤ x.magnitude := (not_le.mp fun hle => hx ⟨hf, hle⟩).le
        cases s with
        | false => exact .inr (h.toIsNeighbour.isCeil hv haway)
        | true => exact .inl (h.toIsNeighbour.isFloor_neg hv haway)
  | down =>
      cases s with
      | false => exact h.toIsNeighbour.isFloor (h.toward rfl)
      | true => exact h.toIsNeighbour.isFloor_neg hv (h.away nofun rfl)
  | up =>
      cases s with
      | false => exact h.toIsNeighbour.isCeil hv (h.away nofun rfl)
      | true => exact h.toIsNeighbour.isCeil_neg (h.toward rfl)
  | zero =>
      cases s with
      | false =>
          exact ⟨fun _ => h.toIsNeighbour.isFloor (h.toward rfl), fun hle => h.toIsNeighbour.isCeil hv (hzero hle)⟩
      | true =>
          refine ⟨fun hle => h.toIsNeighbour.isFloor_neg hv (hzero (neg_nonneg.mp hle)), fun _ => ?_⟩
          exact h.toIsNeighbour.isCeil_neg (h.toward rfl)

theorem IsSignedRounding.isRounded (h : IsSignedRounding mode v x) : IsRounded mode v x := by
  obtain ⟨s, w, rfl, hw, hround⟩ := h
  exact hround.isRounded hw

end RandomX.Binary64
