import Mathlib.Algebra.Field.ZMod
import Mathlib.Data.FinEnum
import Mathlib.RingTheory.AdjoinRoot
import Mathlib.Tactic.ComputeDegree
import RandomX.Aes.Field

/-!
# Bytes as residues

Bytes are the residues of polynomials over two elements modulo `x^8 + x^4 + x^3 + x + 1`, exclusive or is their sum and
the multiplication of bytes their product.
-/
namespace RandomX.Aes

open Polynomial

/-! ## Polynomials -/

/-- `x^8 + x^4 + x^3 + x + 1`. -/
noncomputable def modulus : (ZMod 2)[X] :=
  X ^ 8 + X ^ 4 + X ^ 3 + X + 1

/-- Polynomials over two elements modulo the one above. -/
abbrev ByteField := AdjoinRoot modulus

/-- A bit of a byte as an element of the prime field. -/
def bit (b : UInt8) (i : ℕ) : ZMod 2 :=
  if b.toBitVec.getLsbD i then 1 else 0

noncomputable def polynomial (b : UInt8) : (ZMod 2)[X] :=
  ∑ i ∈ Finset.range 8, monomial i (bit b i)

/-- The residue of the polynomial whose coefficients are the bits of a byte. -/
noncomputable def element (b : UInt8) : ByteField :=
  AdjoinRoot.mk modulus (polynomial b)

theorem modulus_monic : modulus.Monic := by
  rw [modulus]
  monicity!

theorem degree_modulus : modulus.degree = 8 := by
  rw [modulus]
  compute_degree!

theorem bit_xor (a b : UInt8) (i : ℕ) : bit (a ^^^ b) i = bit a i + bit b i := by
  simp only [bit, UInt8.toBitVec_xor, BitVec.getLsbD_xor]
  cases a.toBitVec.getLsbD i <;> cases b.toBitVec.getLsbD i <;> decide

theorem bit_shiftRight_one (b : UInt8) (i : ℕ) : bit (b >>> 1) i = bit b (i + 1) := by
  simp [bit, Nat.add_comm]

theorem bit_shiftLeft_one (b : UInt8) {i : ℕ} (h : i < 8) :
    bit (b <<< 1) i = if i = 0 then 0 else bit b (i - 1) := by
  cases i with
  | zero => simp [bit]
  | succ i => simp [bit, h, BitVec.getLsbD_eq_getElem (Nat.lt_of_succ_lt h)]

theorem bit_of_le (b : UInt8) {i : ℕ} (h : 8 ≤ i) : bit b i = 0 := by
  simp [bit, BitVec.getLsbD_of_ge _ _ h]

@[simp] theorem coeff_polynomial (b : UInt8) (i : ℕ) : (polynomial b).coeff i = bit b i := by
  by_cases h : i < 8
  · simp [polynomial, coeff_monomial, h]
  · simp [polynomial, coeff_monomial, h, bit_of_le b (Nat.le_of_not_lt h)]

theorem degree_polynomial_lt (b : UInt8) : (polynomial b).degree < modulus.degree := by
  rw [degree_modulus]
  refine (degree_lt_iff_coeff_zero _ _).mpr fun i hi => ?_
  rw [coeff_polynomial, bit_of_le b hi]

theorem eq_of_bit_eq {a b : UInt8} (h : ∀ i < 8, bit a i = bit b i) : a = b := by
  refine UInt8.toBitVec_inj.mp (BitVec.eq_of_getLsbD_eq fun i hi => ?_)
  have hb := h i hi
  simp only [bit] at hb
  cases ha : a.toBitVec.getLsbD i <;> cases hc : b.toBitVec.getLsbD i <;> simp_all

theorem card_byte : Nat.card UInt8 = 256 :=
  (Nat.card_congr FinEnum.equiv).trans (Nat.card_fin _)

/-- Every choice of eight bits is that of a byte. -/
theorem exists_bit_eq (f : ℕ → ZMod 2) : ∃ b, ∀ i < 8, bit b i = f i := by
  have hinj : Function.Injective fun (b : UInt8) (i : Fin 8) => bit b i :=
    fun a b h => eq_of_bit_eq fun i hi => congrFun h ⟨i, hi⟩
  have hcard : Nat.card UInt8 = Nat.card (Fin 8 → ZMod 2) := by
    rw [card_byte, Nat.card_fun, Nat.card_zmod, Nat.card_fin]
    rfl
  obtain ⟨b, hb⟩ := ((Nat.bijective_iff_injective_and_card _).mpr ⟨hinj, hcard⟩).surjective fun i => f i
  exact ⟨b, fun i hi => congrFun hb ⟨i, hi⟩⟩

/-! ## Elements -/

theorem element_injective : Function.Injective element := by
  intro a b h
  have hdvd := AdjoinRoot.mk_eq_mk.mp h
  have hlt : (polynomial a - polynomial b).degree < modulus.degree :=
    (degree_sub_le _ _).trans_lt (max_lt (degree_polynomial_lt a) (degree_polynomial_lt b))
  have hzero : polynomial a - polynomial b = 0 := by
    by_contra hne
    exact modulus_monic.not_dvd_of_degree_lt hne hlt hdvd
  refine eq_of_bit_eq fun i _ => ?_
  rw [← coeff_polynomial, sub_eq_zero.mp hzero, coeff_polynomial]

theorem element_surjective : Function.Surjective element := by
  intro x
  obtain ⟨p, rfl⟩ := AdjoinRoot.mk_surjective x
  obtain ⟨b, hb⟩ := exists_bit_eq fun i => (p %ₘ modulus).coeff i
  have hdeg := degree_modByMonic_lt p modulus_monic
  rw [degree_modulus] at hdeg
  have hpoly : polynomial b = p %ₘ modulus := by
    ext i
    rw [coeff_polynomial]
    by_cases hi : i < 8
    · exact hb i hi
    · have hi := Nat.le_of_not_lt hi
      rw [bit_of_le b hi, (degree_lt_iff_coeff_zero _ _).mp hdeg i hi]
  refine ⟨b, AdjoinRoot.mk_eq_mk.mpr ⟨-(p /ₘ modulus), ?_⟩⟩
  rw [hpoly, modByMonic_eq_sub_mul_div]
  ring

/-- Every residue is that of one byte. -/
noncomputable def byteEquiv : UInt8 ≃ ByteField :=
  .ofBijective element ⟨element_injective, element_surjective⟩

theorem element_xor (a b : UInt8) : element (a ^^^ b) = element a + element b := by
  have hp : polynomial (a ^^^ b) = polynomial a + polynomial b := by
    ext i
    simp only [coeff_add, coeff_polynomial, bit_xor]
  rw [element, hp, map_add]
  rfl

@[simp] theorem element_zero : element 0 = 0 := by
  have hp : polynomial 0 = 0 := by
    ext i
    simp [bit]
  rw [element, hp, map_zero]

@[simp] theorem element_one : element 1 = 1 := by
  have hbit : ∀ i < 8, bit 1 i = if i = 0 then 1 else 0 := by decide
  have hp : polynomial 1 = 1 := by
    ext i
    rw [coeff_polynomial, coeff_one]
    by_cases hi : i < 8
    · exact hbit i hi
    · rw [bit_of_le 1 (Nat.le_of_not_lt hi), if_neg (by omega)]
  rw [element, hp, map_one]

theorem coeff_modulus (i : ℕ) : modulus.coeff i = (if i = 8 then 1 else 0) + bit 0x1B i := by
  have hbit : ∀ i < 8, bit 0x1B i =
      (if i = 4 then 1 else 0) + (if i = 3 then 1 else 0) + (if 1 = i then 1 else 0) + if i = 0 then 1 else 0 := by
    decide
  simp only [modulus, coeff_add, coeff_X_pow, coeff_X, coeff_one]
  by_cases hi : i < 8
  · rw [hbit i hi]
    ring
  · rw [bit_of_le _ (Nat.le_of_not_lt hi), if_neg (by omega : i ≠ 4), if_neg (by omega : i ≠ 3),
      if_neg (by omega : ¬ 1 = i), if_neg (by omega : i ≠ 0)]
    ring

/-- Doubling multiplies by `x`, and takes the modulus away once if a bit is carried out. -/
theorem polynomial_double (a : UInt8) : polynomial (double a) = X * polynomial a + C (bit a 7) * modulus := by
  have hcarry : ∀ i, bit (if a >>> 7 = 0 then 0 else 0x1B) i = bit a 7 * bit 0x1B i := by
    have htop : ∀ a : UInt8, bit a 7 = if a >>> 7 = 0 then 0 else 1 := by decide +kernel
    intro i
    rw [htop]
    split <;> simp [bit]
  ext i
  rw [coeff_polynomial, coeff_add, coeff_C_mul, coeff_modulus]
  by_cases hi : i < 8
  · rw [double, bit_xor, bit_shiftLeft_one a hi, hcarry, if_neg (Nat.ne_of_lt hi), zero_add]
    cases i with
    | zero => rw [coeff_X_mul_zero, if_pos rfl]
    | succ j => rw [coeff_X_mul, coeff_polynomial, if_neg (Nat.succ_ne_zero j), Nat.add_sub_cancel]
  · obtain ⟨j, rfl⟩ := Nat.exists_eq_add_of_le (Nat.le_of_not_lt hi)
    rw [bit_of_le _ (Nat.le_add_right 8 j), bit_of_le _ (Nat.le_add_right 8 j), add_zero, Nat.add_comm 8 j,
      coeff_X_mul, coeff_polynomial]
    cases j with
    | zero => simp [CharTwo.add_self_eq_zero]
    | succ j => simp [bit_of_le a (by omega : 8 ≤ j + 1 + 7)]

theorem element_double (a : UInt8) : element (double a) = AdjoinRoot.root modulus * element a := by
  rw [element, polynomial_double, map_add, map_mul, map_mul, AdjoinRoot.mk_self, mul_zero, add_zero, AdjoinRoot.mk_X]
  rfl

theorem element_select (a b : UInt8) :
    element (if b &&& 1 = 0 then 0 else a) = element a * AdjoinRoot.of modulus (bit b 0) := by
  have hbit : ∀ b : UInt8, bit b 0 = if b &&& 1 = 0 then 0 else 1 := by decide +kernel
  rw [hbit]
  split <;> simp

theorem element_multiply (n : ℕ) (a b : UInt8) :
    element (multiply n a b) = element a * AdjoinRoot.mk modulus (∑ i ∈ Finset.range n, monomial i (bit b i)) := by
  induction n generalizing a b with
  | zero => simp [multiply]
  | succ n ih =>
    have hsum : ∑ i ∈ Finset.range n, monomial (i + 1) (bit b (i + 1)) =
        X * ∑ i ∈ Finset.range n, monomial i (bit (b >>> 1) i) := by
      simp [Finset.mul_sum, X_mul_monomial, bit_shiftRight_one]
    rw [multiply, element_xor, element_select, ih, element_double, Finset.sum_range_succ', hsum, map_add, map_mul,
      AdjoinRoot.mk_X, monomial_zero_left, AdjoinRoot.mk_C]
    ring

theorem element_mul (a b : UInt8) : element (mul a b) = element a * element b :=
  element_multiply 8 a b

end RandomX.Aes
