import Mathlib.Data.Nat.Bitwise
import RandomX.Proofs.Outcome
import RandomX.Scratchpad

/-!
# Bounds of the scratchpad

Every mask keeps an address aligned and inside the memory, and accesses inside the memory succeed.
-/
namespace RandomX

open Outcome

/-- The address of an aligned word of the memory. -/
def IsWordAddress (a : Nat) : Prop :=
  a % 8 = 0 ∧ a ≤ scratchpadBytes - 8

/-- The address of an aligned line of the memory. -/
def IsLineAddress (a : Nat) : Prop :=
  a % 64 = 0 ∧ a ≤ scratchpadBytes - 64

theorem IsWordAddress.le {a : Nat} (h : IsWordAddress a) : a + 8 ≤ scratchpadBytes := by
  have := h.2
  simp only [scratchpadBytes] at this ⊢
  omega

theorem IsLineAddress.le {a : Nat} (h : IsLineAddress a) : a + 64 ≤ scratchpadBytes := by
  have := h.2
  simp only [scratchpadBytes] at this ⊢
  omega

theorem IsLineAddress.word {a : Nat} (h : IsLineAddress a) {j : Nat} (hj : j < 8) : IsWordAddress (a + 8 * j) := by
  obtain ⟨hm, hle⟩ := h
  simp only [IsWordAddress, scratchpadBytes] at hle ⊢
  omega

/-! ## Masks -/

/-- A mask clears the low bits that it lacks. -/
theorem and_mod_two_pow_eq_zero (x : Nat) {m k : Nat} (h : m % 2 ^ k = 0) : (x &&& m) % 2 ^ k = 0 := by
  rw [Nat.and_mod_two_pow, h, Nat.and_zero]

theorem isWordAddress_and (x : UInt32) {m : UInt32} (hm : m.toNat % 2 ^ 3 = 0)
    (hle : m.toNat ≤ scratchpadBytes - 8) : IsWordAddress (x &&& m).toNat := by
  rw [UInt32.toNat_and]
  exact ⟨and_mod_two_pow_eq_zero x.toNat hm, Nat.and_le_right.trans hle⟩

theorem isLineAddress_and (x : UInt32) : IsLineAddress (x &&& maskLine).toNat := by
  rw [UInt32.toNat_and]
  exact ⟨and_mod_two_pow_eq_zero (k := 6) x.toNat rfl, Nat.and_le_right.trans (by decide)⟩

namespace Scratchpad

variable (pad : Scratchpad) {a : Nat}

/-! ## Accesses -/

theorem load_of_le (h : a + 8 ≤ scratchpadBytes) : ∃ w, pad.load a = .ok w := by
  rw [load, dif_pos (by rw [pad.size_bytes]; exact h)]
  exact ⟨_, rfl⟩

theorem store_of_le (v : UInt64) (h : a + 8 ≤ scratchpadBytes) : ∃ pad', pad.store a v = .ok pad' := by
  rw [store, if_pos (by rw [pad.size_bytes]; exact h)]
  exact ⟨_, rfl⟩

theorem loadPair_of_le (h : a + 8 ≤ scratchpadBytes) : ∃ x, pad.loadPair a = .ok x := by
  obtain ⟨w, hw⟩ := pad.load_of_le h
  simp [loadPair, hw]

theorem loadLine_of_le (h : a + 64 ≤ scratchpadBytes) : ∃ l, pad.loadLine a = .ok l := by
  obtain ⟨w0, h0⟩ := pad.load_of_le (a := a) (by omega)
  obtain ⟨w1, h1⟩ := pad.load_of_le (a := a + 8) (by omega)
  obtain ⟨w2, h2⟩ := pad.load_of_le (a := a + 16) (by omega)
  obtain ⟨w3, h3⟩ := pad.load_of_le (a := a + 24) (by omega)
  obtain ⟨w4, h4⟩ := pad.load_of_le (a := a + 32) (by omega)
  obtain ⟨w5, h5⟩ := pad.load_of_le (a := a + 40) (by omega)
  obtain ⟨w6, h6⟩ := pad.load_of_le (a := a + 48) (by omega)
  obtain ⟨w7, h7⟩ := pad.load_of_le (a := a + 56) (by omega)
  simp [loadLine, h0, h1, h2, h3, h4, h5, h6, h7]

theorem loadGroup_of_le (h : a + 32 ≤ scratchpadBytes) : ∃ g, pad.loadGroup a = .ok g := by
  obtain ⟨x0, h0⟩ := pad.loadPair_of_le (a := a) (by omega)
  obtain ⟨x1, h1⟩ := pad.loadPair_of_le (a := a + 8) (by omega)
  obtain ⟨x2, h2⟩ := pad.loadPair_of_le (a := a + 16) (by omega)
  obtain ⟨x3, h3⟩ := pad.loadPair_of_le (a := a + 24) (by omega)
  simp [loadGroup, h0, h1, h2, h3]

theorem storeLine_of_le (l : Line) (h : a + 64 ≤ scratchpadBytes) : ∃ pad', pad.storeLine a l = .ok pad' := by
  obtain ⟨p0, h0⟩ := pad.store_of_le (a := a) l.w0 (by omega)
  obtain ⟨p1, h1⟩ := p0.store_of_le (a := a + 8) l.w1 (by omega)
  obtain ⟨p2, h2⟩ := p1.store_of_le (a := a + 16) l.w2 (by omega)
  obtain ⟨p3, h3⟩ := p2.store_of_le (a := a + 24) l.w3 (by omega)
  obtain ⟨p4, h4⟩ := p3.store_of_le (a := a + 32) l.w4 (by omega)
  obtain ⟨p5, h5⟩ := p4.store_of_le (a := a + 40) l.w5 (by omega)
  obtain ⟨p6, h6⟩ := p5.store_of_le (a := a + 48) l.w6 (by omega)
  obtain ⟨p7, h7⟩ := p6.store_of_le (a := a + 56) l.w7 (by omega)
  exact ⟨p7, by simp [storeLine, h0, h1, h2, h3, h4, h5, h6, h7]⟩

end Scratchpad

end RandomX
