import Mathlib.Tactic.Ring
import RandomX.Bytes
import RandomX.Word

/-!
# Words

What shifts, logarithms, high products and sign extensions of words are over the naturals and the integers.
-/
namespace RandomX

/-! ## Shifts -/

section Shifts

variable {w s : UInt64} {n : Nat}

theorem toNat_shiftRight_of_lt (hs : s.toNat = n) (hn : n < 64) : (w >>> s).toNat = w.toNat / 2 ^ n := by
  rw [UInt64.toNat_shiftRight, hs, Nat.mod_eq_of_lt hn, Nat.shiftRight_eq_div_pow]

/-- A shift that loses no bit multiplies by a power of two. -/
theorem toNat_shiftLeft_of_lt (hs : s.toNat = n) (hn : n < 64) (h : w.toNat * 2 ^ n < 2 ^ 64) :
    (w <<< s).toNat = w.toNat * 2 ^ n := by
  rw [UInt64.toNat_shiftLeft, hs, Nat.mod_eq_of_lt hn, Nat.shiftLeft_eq]
  exact Nat.mod_eq_of_lt h

theorem toNat_one_shiftLeft (h : s.toNat < 64) : ((1 : UInt64) <<< s).toNat = 2 ^ s.toNat := by
  have hpow := Nat.pow_lt_pow_right (by decide : 1 < 2) h
  rw [toNat_shiftLeft_of_lt rfl h (by rwa [UInt64.toNat_one, Nat.one_mul]), UInt64.toNat_one, Nat.one_mul]

end Shifts

/-! ## Logarithms and products -/

theorem toNat_log2 (w : UInt64) : w.log2.toNat = w.toNat.log2 :=
  rfl

theorem toNat_mulHigh (a b : UInt64) : (mulHigh a b).toNat = a.toNat * b.toNat / 2 ^ 64 := by
  have hlow (w : UInt64) : (w &&& 0xFFFFFFFF).toNat = w.toNat % 2 ^ 32 := by
    rw [UInt64.toNat_and]
    exact Nat.and_two_pow_sub_one_eq_mod _ 32
  have hhigh (w : UInt64) : (w >>> 32).toNat = w.toNat / 2 ^ 32 := toNat_shiftRight_of_lt rfl (by decide)
  have ha := a.toNat_lt
  have hb := b.toNat_lt
  have hprod (m n : ℕ) (hm : m < 2 ^ 32) (hn : n < 2 ^ 32) : m * n ≤ (2 ^ 32 - 1) * (2 ^ 32 - 1) :=
    Nat.mul_le_mul (by omega) (by omega)
  have h₁ := hprod (a.toNat / 2 ^ 32) (b.toNat % 2 ^ 32) (by omega) (by omega)
  have h₂ := hprod (a.toNat % 2 ^ 32) (b.toNat % 2 ^ 32) (by omega) (by omega)
  have h₃ := hprod (a.toNat % 2 ^ 32) (b.toNat / 2 ^ 32) (by omega) (by omega)
  have h₄ := hprod (a.toNat / 2 ^ 32) (b.toNat / 2 ^ 32) (by omega) (by omega)
  have hsum : a.toNat * b.toNat = a.toNat / 2 ^ 32 * (b.toNat / 2 ^ 32) * 2 ^ 64 +
      (a.toNat / 2 ^ 32 * (b.toNat % 2 ^ 32) + a.toNat % 2 ^ 32 * (b.toNat / 2 ^ 32)) * 2 ^ 32 +
      a.toNat % 2 ^ 32 * (b.toNat % 2 ^ 32) := by
    conv_lhs => rw [← Nat.div_add_mod a.toNat (2 ^ 32), ← Nat.div_add_mod b.toNat (2 ^ 32)]
    ring
  rw [hsum]
  simp only [mulHigh, UInt64.toNat_add, UInt64.toNat_mul, hlow, hhigh]
  omega

/-! ## Bytes and signs -/

theorem or_two_pow_mul {m n : Nat} (h : m < 2 ^ n) (b : Nat) : m ||| 2 ^ n * b = m + 2 ^ n * b := by
  rw [Nat.or_comm, ← Nat.two_pow_add_eq_or_of_lt h, Nat.add_comm]

theorem toNat_byte_shiftLeft (b : UInt8) {s : UInt32} {n : Nat} (hs : s.toNat = n) (hn : n ≤ 24) :
    (b.toUInt32 <<< s).toNat = 2 ^ n * b.toNat := by
  have hb := b.toNat_lt
  have hlt : 2 ^ n * b.toNat < 2 ^ 32 := calc
    2 ^ n * b.toNat ≤ 2 ^ 24 * b.toNat := Nat.mul_le_mul_right _ (Nat.pow_le_pow_right (by decide) hn)
    _ < 2 ^ 32 := by omega
  rw [UInt32.toNat_shiftLeft, UInt8.toNat_toUInt32, hs, Nat.mod_eq_of_lt (by omega : n < 32), Nat.shiftLeft_eq,
    Nat.mul_comm, Nat.mod_eq_of_lt hlt]

theorem toNat_word32 (b0 b1 b2 b3 : UInt8) :
    (word32 b0 b1 b2 b3).toNat = b0.toNat + 2 ^ 8 * b1.toNat + 2 ^ 16 * b2.toNat + 2 ^ 24 * b3.toNat := by
  have h0 := b0.toNat_lt
  have h1 := b1.toNat_lt
  have h2 := b2.toNat_lt
  rw [word32, UInt32.toNat_or, UInt32.toNat_or, UInt32.toNat_or, toNat_byte_shiftLeft b1 (n := 8) rfl (by decide),
    toNat_byte_shiftLeft b2 (n := 16) rfl (by decide), toNat_byte_shiftLeft b3 (n := 24) rfl (by decide),
    UInt8.toNat_toUInt32]
  -- Each byte lies above all the ones before it.
  rw [or_two_pow_mul (n := 8) (by omega), or_two_pow_mul (n := 16) (by omega), or_two_pow_mul (n := 24) (by omega)]

theorem toNat_byte_shiftLeft64 (b : UInt8) {s : UInt64} {n : Nat} (hs : s.toNat = n) (hn : n ≤ 56) :
    (b.toUInt64 <<< s).toNat = 2 ^ n * b.toNat := by
  have hb := b.toNat_lt
  have hlt : b.toNat * 2 ^ n < 2 ^ 64 := calc
    b.toNat * 2 ^ n ≤ b.toNat * 2 ^ 56 := Nat.mul_le_mul_left _ (Nat.pow_le_pow_right (by decide) hn)
    _ < 2 ^ 64 := by omega
  rw [← UInt8.toNat_toUInt64] at hlt ⊢
  rw [toNat_shiftLeft_of_lt hs (by omega) hlt, Nat.mul_comm]

theorem toNat_word64 (b0 b1 b2 b3 b4 b5 b6 b7 : UInt8) : (word64 b0 b1 b2 b3 b4 b5 b6 b7).toNat =
    b0.toNat + 2 ^ 8 * b1.toNat + 2 ^ 16 * b2.toNat + 2 ^ 24 * b3.toNat + 2 ^ 32 * b4.toNat + 2 ^ 40 * b5.toNat +
      2 ^ 48 * b6.toNat + 2 ^ 56 * b7.toNat := by
  have h0 := b0.toNat_lt
  have h1 := b1.toNat_lt
  have h2 := b2.toNat_lt
  have h3 := b3.toNat_lt
  have h4 := b4.toNat_lt
  have h5 := b5.toNat_lt
  have h6 := b6.toNat_lt
  simp only [word64, UInt64.toNat_or]
  rw [UInt8.toNat_toUInt64, toNat_byte_shiftLeft64 b1 (n := 8) rfl (by decide),
    toNat_byte_shiftLeft64 b2 (n := 16) rfl (by decide), toNat_byte_shiftLeft64 b3 (n := 24) rfl (by decide),
    toNat_byte_shiftLeft64 b4 (n := 32) rfl (by decide), toNat_byte_shiftLeft64 b5 (n := 40) rfl (by decide),
    toNat_byte_shiftLeft64 b6 (n := 48) rfl (by decide), toNat_byte_shiftLeft64 b7 (n := 56) rfl (by decide)]
  -- Each byte lies above all the ones before it.
  rw [or_two_pow_mul (n := 8) (by omega), or_two_pow_mul (n := 16) (by omega), or_two_pow_mul (n := 24) (by omega),
    or_two_pow_mul (n := 32) (by omega), or_two_pow_mul (n := 40) (by omega), or_two_pow_mul (n := 48) (by omega),
    or_two_pow_mul (n := 56) (by omega)]

theorem toNat_byte32 {w s : UInt32} {n : Nat} (hs : s.toNat = n) (hn : n < 32) :
    (byte32 w s).toNat = w.toNat / 2 ^ n % 2 ^ 8 := by
  rw [byte32, UInt32.toNat_toUInt8, UInt32.toNat_shiftRight, hs, Nat.mod_eq_of_lt hn, Nat.shiftRight_eq_div_pow]

theorem toNat_byte64 {w s : UInt64} {n : Nat} (hs : s.toNat = n) (hn : n < 64) :
    (byte64 w s).toNat = w.toNat / 2 ^ n % 2 ^ 8 := by
  rw [byte64, UInt64.toNat_toUInt8, toNat_shiftRight_of_lt hs hn]

/-- A number is known by its bytes. -/
theorem eq_of_bytes {k m n : Nat} (hm : m < 256 ^ k) (hn : n < 256 ^ k)
    (h : ∀ j < k, m / 256 ^ j % 256 = n / 256 ^ j % 256) : m = n := by
  induction k generalizing m n with
  | zero => omega
  | succ k ih =>
      have hlow : m % 256 = n % 256 := by simpa using h 0 (Nat.zero_lt_succ k)
      have hhigh : m / 256 = n / 256 := by
        rw [Nat.pow_succ'] at hm hn
        refine ih (Nat.div_lt_of_lt_mul hm) (Nat.div_lt_of_lt_mul hn) fun j hj => ?_
        have hbyte := h (j + 1) (Nat.succ_lt_succ hj)
        rwa [Nat.pow_succ', ← Nat.div_div_eq_div_mul, ← Nat.div_div_eq_div_mul] at hbyte
      rw [← Nat.div_add_mod m 256, hlow, hhigh, Nat.div_add_mod]

theorem byte32_xor (v w s : UInt32) : byte32 (v ^^^ w) s = byte32 v s ^^^ byte32 w s := by
  rw [← UInt8.toBitVec_inj]
  simp [byte32, BitVec.ushiftRight_xor_distrib]

/-- A word is made of its bytes. -/
theorem word32_byte32 (w : UInt32) : word32 (byte32 w 0) (byte32 w 8) (byte32 w 16) (byte32 w 24) = w := by
  have hw := w.toNat_lt
  rw [← UInt32.toNat_inj, toNat_word32, toNat_byte32 (n := 0) rfl (by decide), toNat_byte32 (n := 8) rfl (by decide),
    toNat_byte32 (n := 16) rfl (by decide), toNat_byte32 (n := 24) rfl (by decide)]
  omega

/-- The bytes of a word are those that it is made of. -/
theorem byte32_word32 (b0 b1 b2 b3 : UInt8) :
    [byte32 (word32 b0 b1 b2 b3) 0, byte32 (word32 b0 b1 b2 b3) 8, byte32 (word32 b0 b1 b2 b3) 16,
      byte32 (word32 b0 b1 b2 b3) 24] = [b0, b1, b2, b3] := by
  have h0 := b0.toNat_lt
  have h1 := b1.toNat_lt
  have h2 := b2.toNat_lt
  have h3 := b3.toNat_lt
  simp only [List.cons.injEq, and_true, ← UInt8.toNat_inj, toNat_byte32 (s := 0) (n := 0) rfl (by decide),
    toNat_byte32 (s := 8) (n := 8) rfl (by decide), toNat_byte32 (s := 16) (n := 16) rfl (by decide),
    toNat_byte32 (s := 24) (n := 24) rfl (by decide), toNat_word32]
  omega

/-- Extending by the sign is reading a number of 32 bits in two's complement. -/
theorem signExtend_eq (x : UInt32) :
    signExtend x = .ofInt (if x.toNat < 2 ^ 31 then x.toNat else x.toNat - 2 ^ 32) := by
  have h : x.toBitVec.toInt = if x.toNat < 2 ^ 31 then (x.toNat : Int) else x.toNat - 2 ^ 32 := by
    rw [BitVec.toInt_eq_toNat_cond]
    simp only [UInt32.toNat_toBitVec]
    split <;> split <;> first | rfl | omega
  rw [← h, ← UInt64.toNat_inj, UInt64.ofInt, UInt64.toNat_ofNat', signExtend]
  change (BitVec.ofInt 64 x.toBitVec.toInt).toNat = _
  rw [BitVec.toNat_ofInt]
  omega

theorem toUInt32_signExtend (x : UInt32) : (signExtend x).toUInt32 = x := by
  have hx := x.toNat_lt
  rw [← UInt32.toNat_inj, UInt64.toNat_toUInt32, signExtend_eq, UInt64.ofInt, UInt64.toNat_ofNat']
  split <;> omega

end RandomX
