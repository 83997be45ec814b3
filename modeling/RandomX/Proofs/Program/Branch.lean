import Mathlib.Data.Nat.Bitwise
import RandomX.Program.Compile
import RandomX.Proofs.Word

/-!
# Branch words

The bits that a branch tests form a field of eight bits. Its addend has the lowest bit of the field set and the bit
below the field clear. A sum that leaves the field clear therefore lets at most one more sum do so, and that only with
a carry out of the bits below, which cannot happen twice in a row.
-/
namespace RandomX.Program

/-- An addend and a mask that test the field of eight bits from `s` on. -/
structure IsBranchWord (s : Nat) (imm mask : UInt64) : Prop where
  pos : 0 < s
  le : s + 8 ≤ 64
  mask_eq : mask.toNat = 255 * 2 ^ s
  /-- The lowest bit of the field is set. -/
  set : imm.toNat.testBit s = true
  /-- The bit below the field is clear. -/
  clear : imm.toNat.testBit (s - 1) = false

/-! ## Bits -/

theorem testBit_not (x : UInt64) {k : Nat} (h : k < 64) : (~~~x).toNat.testBit k = !x.toNat.testBit k := by
  have := BitVec.getLsbD_not (x := x.toBitVec) (i := k)
  rw [decide_eq_true h, Bool.true_and] at this
  exact this

/-! ## Fields -/

theorem and_field (v s : Nat) : v &&& 255 * 2 ^ s = v / 2 ^ s % 2 ^ 8 * 2 ^ s := by
  apply Nat.eq_of_testBit_eq
  intro j
  rw [show (255 : Nat) = 2 ^ 8 - 1 from rfl]
  simp only [Nat.testBit_and, Nat.testBit_mul_two_pow, Nat.testBit_mod_two_pow, Nat.testBit_two_pow_sub_one,
    Nat.testBit_div_two_pow]
  by_cases hj : s ≤ j
  · simp [hj, Bool.and_comm]
  · simp [hj]

/-- A field is clear exactly when the low bits up to its end form a number below it. -/
theorem field_eq_zero_iff (v s : Nat) : v / 2 ^ s % 2 ^ 8 = 0 ↔ v % (256 * 2 ^ s) < 2 ^ s := by
  have h := Nat.mod_mul_right_div_self v (2 ^ s) 256
  rw [show (2 : Nat) ^ 8 = 256 from rfl, ← h, Nat.mul_comm (2 ^ s)]
  exact Nat.div_eq_zero_iff_lt (Nat.two_pow_pos s)

variable {s : Nat} {v imm mask : UInt64}

theorem IsBranchWord.and_eq_zero_iff (h : IsBranchWord s imm mask) :
    v &&& mask = 0 ↔ v.toNat % (256 * 2 ^ s) < 2 ^ s := by
  rw [← field_eq_zero_iff, ← UInt64.toNat_inj, UInt64.toNat_and, h.mask_eq, and_field]
  have := Nat.two_pow_pos s
  simp

/-! ## Sums -/

/-- The low bits of the addend up to the end of the field: an odd field above a number that is less than half of the
range below the field. -/
theorem IsBranchWord.exists_parts (h : IsBranchWord s imm mask) : ∃ half c l, 2 ^ s = 2 * half ∧ c % 2 = 1 ∧ c < 256 ∧
    l < half ∧ imm.toNat % (256 * 2 ^ s) = c * (2 * half) + l := by
  obtain ⟨t, rfl⟩ : ∃ t, s = t + 1 := ⟨s - 1, by have := h.pos; omega⟩
  have hset := h.set
  have hclear := h.clear
  simp only [Nat.add_sub_cancel, Nat.testBit_eq_decide_div_mod_eq, decide_eq_true_eq, decide_eq_false_iff_not] at hset hclear
  have hpos := Nat.two_pow_pos t
  refine ⟨2 ^ t, imm.toNat / 2 ^ (t + 1) % 256, imm.toNat % 2 ^ (t + 1), by rw [pow_succ'], ?_,
    Nat.mod_lt _ (by decide), ?_, ?_⟩
  · omega
  · rw [pow_succ, Nat.mod_mul]
    have : imm.toNat / 2 ^ t % 2 = 0 := by omega
    rw [this, Nat.mul_zero, Nat.add_zero]
    exact Nat.mod_lt _ hpos
  · rw [Nat.mul_comm 256, Nat.mod_mul, ← pow_succ', Nat.add_comm, Nat.mul_comm]

/-- The carry argument in whole numbers: `y` and its first sum lie below the field, so the field of the addend was full
and a carry filled it up, which leaves less than half of the range below it. -/
theorem le_second_sum {half c l y : Nat} (hc : c % 2 = 1) (hc' : c < 256) (hl : l < half) (hy : y < 2 * half)
    (hz : (y + (c * (2 * half) + l)) % (256 * (2 * half)) < 2 * half) :
    2 * half ≤ ((y + (c * (2 * half) + l)) % (256 * (2 * half)) + (c * (2 * half) + l)) % (256 * (2 * half)) := by
  rcases Nat.lt_or_ge c 255 with hlt | hge
  · have hle : c * (2 * half) ≤ 253 * (2 * half) := Nat.mul_le_mul_right _ (by omega)
    have hge : 1 * (2 * half) ≤ c * (2 * half) := Nat.mul_le_mul_right _ (by omega)
    rw [Nat.mod_eq_of_lt (by omega)] at hz
    omega
  · obtain rfl : c = 255 := by omega
    rcases Nat.lt_or_ge (y + (255 * (2 * half) + l)) (256 * (2 * half)) with hs | hs
    · rw [Nat.mod_eq_of_lt hs] at hz
      omega
    · have hmod : (y + (255 * (2 * half) + l)) % (256 * (2 * half)) = y + l - 2 * half := by
        rw [Nat.mod_eq_sub_mod hs, Nat.mod_eq_of_lt (by omega)]
        omega
      rw [hmod, Nat.mod_eq_of_lt (by omega)]
      omega

theorem toNat_add_mod (hs : s + 8 ≤ 64) (v w : UInt64) :
    (v + w).toNat % (256 * 2 ^ s) = (v.toNat % (256 * 2 ^ s) + w.toNat % (256 * 2 ^ s)) % (256 * 2 ^ s) := by
  have hd : 256 * 2 ^ s ∣ 2 ^ 64 := by
    rw [show (256 : Nat) = 2 ^ 8 from rfl, ← pow_add, Nat.add_comm]
    exact Nat.pow_dvd_pow 2 hs
  rw [UInt64.toNat_add, Nat.mod_mod_of_dvd _ hd, Nat.add_mod]

/-- Three sums in a row never all leave the field clear. -/
theorem IsBranchWord.third_sum_ne_zero (h : IsBranchWord s imm mask) (h₁ : v &&& mask = 0)
    (h₂ : (v + imm) &&& mask = 0) : (v + imm + imm) &&& mask ≠ 0 := by
  obtain ⟨half, c, l, hs, hc, hc', hl, himm⟩ := h.exists_parts
  rw [h.and_eq_zero_iff] at h₁ h₂
  rw [ne_eq, h.and_eq_zero_iff, toNat_add_mod h.le, Nat.not_lt]
  rw [toNat_add_mod h.le] at h₂ ⊢
  rw [himm, hs] at h₂ ⊢
  rw [hs] at h₁
  exact le_second_sum hc hc' hl h₁ h₂

end RandomX.Program
