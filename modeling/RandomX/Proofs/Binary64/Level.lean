import RandomX.Proofs.Binary64.Sum

/-!
# Levels

Scaling can raise a large number by fifteen binades, but only to the other end of its block of sixteen, and a sum moves it
by one rank. To leave a block a number has to pass all its binades one after the other, so that the level, which counts
the moves this takes, bounds the exponent by the number of sums.
-/
namespace RandomX.Binary64

variable {x y : Binary64} {mode : Rounding} {n : Nat}

/-- The moves from the start of its block to the lower end of a binade that is the `k`-th of the block. Scaling leads from
one end of the block to the other, so that the binades are passed from both ends in turns. -/
def movesTo (k : Nat) : Nat :=
  if k % 2 = 0 then k else 15 - k

/-- The moves that lead to a rank: those to the nearer end of its binade, and those from there. -/
def level (m : Nat) : Nat :=
  16 * (m / 2 ^ 52 / 16) +
    min (movesTo (m / 2 ^ 52 % 16) + m % 2 ^ 52) (15 - movesTo (m / 2 ^ 52 % 16) + (2 ^ 52 - 1 - m % 2 ^ 52))

theorem level_succ (m : Nat) : level (m + 1) ≤ level m + 1 ∧ level m ≤ level (m + 1) + 1 := by
  have hdiv : (m + 1) / 2 ^ 52 = m / 2 ^ 52 + (m % 2 ^ 52 + 1) / 2 ^ 52 := by omega
  have hmod : (m + 1) % 2 ^ 52 = (m % 2 ^ 52 + 1) % 2 ^ 52 := by omega
  have hlt : m % 2 ^ 52 < 2 ^ 52 := Nat.mod_lt _ (by decide)
  rw [level, level, hdiv, hmod]
  generalize m / 2 ^ 52 = e
  generalize m % 2 ^ 52 = f at hlt
  by_cases hcarry : f + 1 < 2 ^ 52
  · rw [Nat.div_eq_of_lt hcarry, Nat.mod_eq_of_lt hcarry, Nat.add_zero]
    omega
  · -- The next binade is passed from the end that this one leads to.
    have hdiv : (f + 1) / 2 ^ 52 = 1 := by omega
    have hmod : (f + 1) % 2 ^ 52 = 0 := by omega
    rw [hdiv, hmod]
    unfold movesTo
    split <;> split <;> omega

theorem level_le_of_near {m k : Nat} (hle : k ≤ m + 1) (hge : m ≤ k + 1) : level k ≤ level m + 1 := by
  rcases (by omega : k = m + 1 ∨ k = m ∨ m = k + 1) with rfl | rfl | rfl
  · exact (level_succ m).1
  · exact Nat.le_succ _
  · exact (level_succ k).2

theorem level_scaled (x : Binary64) : level x.scaled.rank = level x.rank := by
  obtain ⟨hblock, hbinade, hfraction⟩ := rank_scaled x
  have hmoves : movesTo (15 - x.rank / 2 ^ 52 % 16) = movesTo (x.rank / 2 ^ 52 % 16) := by
    unfold movesTo
    split <;> split <;> omega
  rw [level, level, hblock, hbinade, hfraction, hmoves]

theorem exponentField_le_level (x : Binary64) : x.exponentField.toNat ≤ level x.rank + 15 := by
  rw [toNat_exponentField, level]
  omega

/-! ## Numbers after sums -/

/-- The first exponent field at which an addend is small against the last bit. -/
def largeField : Nat :=
  0x480

/-- The number is not large, or its level does not exceed that of the least large number by more than `n`. -/
def IsWithin (n : Nat) (x : Binary64) : Prop :=
  x.exponentField.toNat < largeField ∨ level x.rank ≤ largeField + n

theorem IsWithin.mono {k : Nat} (h : x.IsWithin n) (hk : n ≤ k) : x.IsWithin k :=
  h.imp_right fun h => h.trans (Nat.add_le_add_left hk _)

theorem IsAddend.isWithin (h : x.IsAddend) (n : Nat) : x.IsWithin n :=
  .inl (h.trans_lt (by decide))

theorem IsWithin.exponentField_le (h : x.IsWithin n) : x.exponentField.toNat ≤ largeField + n + 15 := by
  rcases h with h | h
  · omega
  · exact x.exponentField_le_level.trans (Nat.add_le_add_right h 15)

theorem IsWithin.isFinite (h : x.IsWithin n) (hn : n ≤ 800) : x.isFinite = true := by
  have hle := h.exponentField_le
  rw [largeField] at hle
  exact isFinite_iff.mpr (by omega)

theorem IsWithin.scaled (h : x.IsWithin n) : x.scaled.IsWithin n := by
  rcases h with h | h
  · left
    obtain ⟨hblock, _, _⟩ := rank_scaled x
    rw [toNat_exponentField, largeField] at h ⊢
    omega
  · exact .inr ((level_scaled x).trans_le h)

theorem IsAddend.isFinite (h : x.IsAddend) : x.isFinite = true :=
  isFinite_iff.mpr (h.trans (by decide))

/-- An addend is no more than half the last bit of a large number. -/
theorem IsAddend.magnitude_le (h : y.IsAddend) {q : ℤ} (hq : 77 ≤ q) : y.magnitude ≤ 2 ^ (q - 1) := by
  have hexp := y.exponent_eq
  rw [IsAddend] at h
  exact y.magnitude_lt_two_pow.le.trans (zpow_le_zpow_right₀ one_le_two (by omega))

theorem level_largeField : level (largeField * 2 ^ 52) = largeField := by
  decide

/-- A sum with an addend makes no more than the least large number of one that is not large. -/
theorem add_isWithin_of_lt (h : x.exponentField.toNat < largeField) (hy : y.IsAddend) (mode : Rounding) (n : Nat) :
    (x.add mode y).IsWithin n := by
  have hx : x.isFinite = true := isFinite_iff.mpr (h.le.trans (by decide))
  have hfield := x.toNat_exponentField
  rw [largeField] at h
  have hsmall := hy.magnitude_le (le_refl 77)
  have hlast : (2 : ℚ) ^ (77 - 1 : ℤ) ≤ 2 ^ ((((0x480 * 2 ^ 52 - 1) / 2 ^ 52 - 1 : ℕ) : ℤ) - 1074) :=
    zpow_le_zpow_right₀ one_le_two (by omega)
  have hrank := rank_add_le mode (r := 0x480 * 2 ^ 52 - 1) hx hy.isFinite (by omega) (by decide) (hsmall.trans hlast)
  rcases Nat.lt_or_ge (x.add mode y).rank (0x480 * 2 ^ 52) with hlt | hge
  · left
    rw [toNat_exponentField, largeField]
    omega
  · right
    rw [show (x.add mode y).rank = largeField * 2 ^ 52 from Nat.le_antisymm hrank hge, level_largeField]
    exact Nat.le_add_right _ _

/-- A sum of a large number with an addend is the number itself or one of its neighbours. -/
theorem level_add_le (hx : x.isFinite = true) (h : largeField ≤ x.exponentField.toNat)
    (hlt : x.exponentField.toNat < 2046) (hy : y.IsAddend) (mode : Rounding) :
    level (x.add mode y).rank ≤ level x.rank + 1 := by
  have hexp := x.exponent_eq
  have hfield := x.toNat_exponentField
  rw [largeField] at h
  have hsmall := hy.magnitude_le (q := x.exponent) (by omega)
  have hlast : (2 : ℚ) ^ (x.exponent - 1) ≤ 2 ^ (((x.rank / 2 ^ 52 - 1 : ℕ) : ℤ) - 1074) :=
    zpow_le_zpow_right₀ one_le_two (by omega)
  have hhi := rank_add_le mode (r := x.rank) hx hy.isFinite le_rfl (by omega) (hsmall.trans hlast)
  have hlo := le_rank_add mode hx hy.isFinite hsmall
  exact level_le_of_near hhi hlo

/-- A sum with an addend raises the level by one at most. -/
theorem IsWithin.add (h : x.IsWithin n) (hn : n ≤ 800) (hy : y.IsAddend) (mode : Rounding) :
    (x.add mode y).IsWithin (n + 1) := by
  by_cases hlarge : x.exponentField.toNat < largeField
  · exact add_isWithin_of_lt hlarge hy mode (n + 1)
  · have hle := h.exponentField_le
    have hlt : x.exponentField.toNat < 2046 := hle.trans_lt (by rw [largeField]; omega)
    have hlevel := level_add_le (h.isFinite hn) (not_lt.mp hlarge) hlt hy mode
    exact .inr (hlevel.trans (Nat.add_le_add_right (h.resolve_left hlarge) 1))

theorem IsWithin.sub (h : x.IsWithin n) (hn : n ≤ 800) (hy : y.IsAddend) (mode : Rounding) :
    (x.sub mode y).IsWithin (n + 1) :=
  h.add hn hy.negate mode

end RandomX.Binary64
