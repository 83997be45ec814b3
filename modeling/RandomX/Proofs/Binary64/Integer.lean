import RandomX.Proofs.Binary64.Rounding

/-!
# Integers

A number that some double stands for is its own rounding in every direction. Whole numbers below `2 ^ 53` are such
numbers, and so the double of a signed 32-bit integer is equal to it.
-/
namespace RandomX.Binary64

variable {x y : Binary64} {s : Bool} {n : UInt64} {z : ℤ} {v : ℚ}

/-! ## Exact roundings -/

theorem IsNeighbour.eq_of_isFinite (h : IsNeighbour s v x) (hy : y.isFinite = true) (hv : y.magnitude = v) :
    x.magnitude = v :=
  le_antisymm ((h.le y hy hv.ge).trans_eq hv) (hv.ge.trans (h.ge y hy hv.le))

/-- A whole number of at most 53 bits is the significand of a double, shifted to full length. -/
theorem exists_magnitude_eq (hn : n.toNat < 2 ^ 53) : ∃ y : Binary64, y.isFinite = true ∧ y.magnitude = n.toNat := by
  by_cases h0 : n.toNat = 0
  · exact ⟨zero false, by decide, by simp [h0, magnitude_eq, rank, zero, ofParts, units]⟩
  · have hlog : n.toNat.log2 < 53 := (Nat.log2_lt h0).mpr hn
    obtain ⟨d, hd⟩ : ∃ d, n.toNat.log2 + d = 52 := ⟨52 - n.toNat.log2, by omega⟩
    obtain ⟨hnat, hlt, hfull⟩ := toNat_shiftLeft_of_fits h0 hd.le
    have hval : (n.toNat : ℚ) = (n <<< d.toUInt64).toNat * 2 ^ (-d : ℤ) := by
      rw [hnat, Nat.cast_mul, mul_assoc, ← two_zpow_add, neg_add_cancel, zpow_zero, mul_one]
    obtain ⟨hmag, -, -⟩ := magnitude_pattern (m := n <<< d.toUInt64) (show -1074 ≤ -(d : ℤ) by omega) (by omega)
      (by omega) (.inl (by rw [hnat]; exact hfull hd)) false
    rw [← hval] at hmag
    refine ⟨_, isFinite_iff_magnitude_lt.mpr ?_, hmag⟩
    calc _ = (n.toNat : ℚ) := hmag
      _ < (2 ^ 53 : ℕ) := Nat.cast_lt.mpr hn
      _ = 2 ^ (0 + (53 : ℕ) : ℤ) := by rw [two_zpow_add, zpow_zero, mul_one]
      _ ≤ 2 ^ (1024 : ℤ) := zpow_le_zpow_right₀ one_le_two (by decide)

/-- Rounding cuts nothing off a whole number below `2 ^ 53`. -/
theorem round_of_lt (mode : Rounding) (s : Bool) (hn : n.toNat < 2 ^ 53) :
    (round mode s n 0).isFinite = true ∧ (round mode s n 0).magnitude = n.toNat ∧ (round mode s n 0).isNegative = s := by
  have hround := round_isRounding mode s 0 (hn.trans (by decide))
  rw [zpow_zero, mul_one] at hround
  obtain ⟨y, hy, hmag⟩ := exists_magnitude_eq hn
  have heq := hround.eq_of_isFinite hy hmag
  refine ⟨?_, heq, hround.isNegative⟩
  rw [isFinite_iff_magnitude_lt] at hy ⊢
  rwa [heq, ← hmag]

/-! ## Signed integers -/

/-- The double is equal to an integer. For zero it is the positive one. -/
structure IsInteger (z : ℤ) (x : Binary64) : Prop where
  isFinite : x.isFinite = true
  toRat : x.toRat = z
  isNegative : x.isNegative = decide (z < 0)

theorem bmod_toNat (w : UInt32) :
    Int.bmod w.toNat (2 ^ 32) = if w.toNat < 2 ^ 31 then (w.toNat : ℤ) else w.toNat - 2 ^ 32 := by
  have hw := w.toNat_lt
  rw [Int.bmod_def]
  split <;> split <;> omega

/-- A negative integer is the rounding of its magnitude, with the sign put back. -/
theorem exists_ofInt32_eq_round (w : UInt32) : ∃ n : UInt64, n.toNat = (Int.bmod w.toNat (2 ^ 32)).natAbs ∧
    n.toNat ≤ 2 ^ 31 ∧ ofInt32 w = round .nearest (decide (Int.bmod w.toNat (2 ^ 32) < 0)) n 0 := by
  have hw := w.toNat_lt
  have hlt : w < 0x80000000 ↔ w.toNat < 2 ^ 31 := UInt32.lt_iff_toNat_lt
  rw [bmod_toNat, ofInt32]
  by_cases h : w.toNat < 2 ^ 31
  · rw [if_pos h, if_pos (hlt.mpr h), decide_eq_false (by omega)]
    refine ⟨w.toUInt64, ?_, ?_, rfl⟩ <;> rw [UInt32.toNat_toUInt64] <;> omega
  · have hneg : (0 - w).toNat = 2 ^ 32 - w.toNat := by
      rw [UInt32.toNat_sub]
      change (2 ^ 32 - w.toNat + 0) % 2 ^ 32 = _
      omega
    rw [if_neg h, if_neg (mt hlt.mp h), decide_eq_true (by omega)]
    refine ⟨(0 - w).toUInt64, ?_, ?_, rfl⟩ <;> rw [UInt32.toNat_toUInt64, hneg] <;> omega

theorem signed_natAbs (z : ℤ) : signed (decide (z < 0)) z.natAbs = z := by
  rw [signed, Nat.cast_natAbs]
  split
  · rename_i h
    rw [abs_of_neg (of_decide_eq_true h), Int.cast_neg, neg_neg]
  · rename_i h
    rw [abs_of_nonneg (by simpa using h)]

theorem ofInt32_isInteger (w : UInt32) : IsInteger (Int.bmod w.toNat (2 ^ 32)) (ofInt32 w) := by
  obtain ⟨n, hn, hle, heq⟩ := exists_ofInt32_eq_round w
  obtain ⟨hfinite, hmag, hs⟩ := round_of_lt .nearest (decide (Int.bmod w.toNat (2 ^ 32) < 0)) (n := n) (by omega)
  rw [← heq] at hfinite hmag hs
  refine ⟨hfinite, ?_, hs⟩
  rw [toRat_eq, hs, hmag, hn, signed_natAbs]

end RandomX.Binary64
